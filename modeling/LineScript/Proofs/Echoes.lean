/-
# The same tokens compiled elsewhere

Two compilations of the same tokens: one starts with an empty top level, the other has code in its
top level already. Besides that they know the same names. Then the second writes what the first
writes, behind what it had, with the targets of the jumps moved. Lines are left out of the
comparison, since they are nothing but a help in messages.

Errors are left out too. Whenever the first compilation succeeds, so does the second; the only
way out is an error that no script causes, and that there is none is known already.
-/

import LineScript.Proofs.Entries
import LineScript.Proofs.JoinedTexts

namespace LineScript.Code

/-! ## Moved code -/

/-- The instruction without its line in code that begins further on: a jump that is resolved leads as
much further. -/
def Instruction.moved (distance : Nat) (i : Instruction) : Instruction :=
  { i.unplaced with
    target := if i.op.isJump = true ∧ i.target ≠ unresolvedTarget then i.target + distance
      else i.target }

theorem Instruction.moved_of_not_isJump {i : Instruction} (h : i.op.isJump = false) (distance : Nat) :
    i.moved distance = i.unplaced := by
  unfold moved
  rw [if_neg (by simp [h])]
  rfl

theorem Instruction.moved_of_unresolved {i : Instruction} (h : i.target = unresolvedTarget)
    (distance : Nat) : i.moved distance = i.unplaced := by
  unfold moved
  rw [if_neg (by simp [h])]
  rfl

theorem Instruction.moved_zero (i : Instruction) : i.moved 0 = i.unplaced := by
  unfold moved
  rw [Int.natCast_zero, Int.add_zero, ite_self]
  rfl

namespace Function

/-- A placeholder is resolved exactly when there is one. -/
theorem patchHere_eq_ok_iff {f g : Function} {address : Nat} :
    f.patchHere address = .ok g ↔ ∃ i, f.code[address]? = some i ∧ i.op.isJump = true ∧
      i.target = unresolvedTarget ∧ g = { f with
        code? := some (f.code.modify address (fun i => { i with target := f.length })) } := by
  unfold patchHere patch
  dsimp only
  rw [if_neg (by omega), Int.toNat_natCast]
  cases f.code[address]? with
  | none => simp
  | some i =>
      simp only [Option.some.injEq, exists_eq_left']
      by_cases hjump : i.op.isJump = true
      · by_cases htarget : i.target = unresolvedTarget
        · rw [if_neg (by simp [hjump]), if_neg (by simp [htarget]), if_neg (by simp)]
          simp only [hjump, htarget, true_and, Except.ok.injEq]
          exact eq_comm
        · simp [hjump, htarget]
      · simp [hjump]

/-- A function that has the same variables as another, and its code behind other code. -/
structure Copies (before : List Instruction) (f f' : Function) : Prop where
  name : f'.name = f.name
  params : f'.params? = f.params?
  scope : f'.scope = f.scope
  marked : ∀ name marker, f.scope.get? name = some marker → marker = some name
  written : f.code?.isSome = true ∧ f'.code?.isSome = true
  code : f'.code.toList.map Instruction.unplaced =
    before ++ f.code.toList.map (Instruction.moved before.length)

namespace Copies

variable {before : List Instruction} {f f' : Function}

theorem length_eq (h : Copies before f f') : f'.length = f.length + before.length := by
  have hlength := congrArg List.length h.code
  rw [List.length_map, List.length_append, List.length_map, Array.length_toList,
    Array.length_toList, Nat.add_comm] at hlength
  exact hlength

theorem arity_eq (h : Copies before f f') : f'.arity = f.arity := by
  unfold arity Function.params
  rw [h.params]

theorem declares_eq (h : Copies before f f') (name : String) : f'.declares name = f.declares name := by
  unfold declares
  rw [h.scope]

theorem emit (h : Copies before f f') {i i' : Instruction}
    (hi : i'.unplaced = i.moved before.length) : Copies before (f.emit i) (f'.emit i') := by
  refine ⟨h.name, h.params, h.scope, h.marked, ⟨rfl, rfl⟩, ?_⟩
  change (f'.code.push i').toList.map _ = before ++ (f.code.push i).toList.map _
  rw [Array.toList_push, Array.toList_push, List.map_append, List.map_append, h.code,
    List.append_assoc, List.map_singleton, List.map_singleton, hi]

theorem declare (h : Copies before f f') (name : String) :
    Copies before (f.declare name) (f'.declare name) := by
  unfold Function.declare
  rw [h.declares_eq]
  split
  · exact h
  · exact ⟨h.name, h.params, congrArg (·.insert name (some name)) h.scope,
      Dict.forall_get?_insert rfl h.marked, h.written, h.code⟩

/-- The instruction of the copy at an address. -/
theorem getElem? (h : Copies before f f') {address : Nat} {i : Instruction}
    (hi : f.code[address]? = some i) :
    ∃ i', f'.code[address + before.length]? = some i' ∧ i'.unplaced = i.moved before.length := by
  have hmoved : (f'.code.toList.map Instruction.unplaced)[address + before.length]? =
      some (i.moved before.length) := by
    rw [h.code, List.getElem?_append_right (Nat.le_add_left _ _), Nat.add_sub_cancel,
      List.getElem?_map, Array.getElem?_toList, hi]
    rfl
  rw [List.getElem?_map, Array.getElem?_toList, Option.map_eq_some_iff] at hmoved
  exact hmoved

/-- A placeholder of the copy is resolved to the end as well. -/
theorem patchHere (h : Copies before f f') {address : Nat} {g : Function}
    (hg : f.patchHere address = .ok g) :
    ∃ g', f'.patchHere (address + before.length : Nat) = .ok g' ∧ Copies before g g' := by
  obtain ⟨i, hi, hjump, htarget, rfl⟩ := patchHere_eq_ok_iff.mp hg
  obtain ⟨i', hi', hunplaced⟩ := h.getElem? hi
  rw [Instruction.moved_of_unresolved htarget] at hunplaced
  have hop : i'.unplaced.op = i.unplaced.op := by rw [hunplaced]
  have htarget' : i'.unplaced.target = i.unplaced.target := by rw [hunplaced]
  refine ⟨_, patchHere_eq_ok_iff.mpr ⟨i', hi', ?_, htarget'.trans htarget, rfl⟩,
    h.name, h.params, h.scope, h.marked, ⟨rfl, rfl⟩, ?_⟩
  · exact (congrArg Opcode.isJump hop).trans hjump
  have hnew : ∀ (f : Function) (code : Array Instruction),
      ({ f with code? := some code } : Function).code = code := fun _ _ => rfl
  rw [hnew, hnew]
  apply List.ext_getElem?
  intro position
  by_cases hposition : position = address + before.length
  · subst hposition
    rw [List.getElem?_append_right (Nat.le_add_left _ _), Nat.add_sub_cancel, List.getElem?_map,
      List.getElem?_map, Array.getElem?_toList, Array.getElem?_toList, Array.getElem?_modify,
      Array.getElem?_modify, if_pos rfl, if_pos rfl, hi, hi', h.length_eq]
    have hend : (f.length : Int) ≠ unresolvedTarget := by
      unfold unresolvedTarget
      omega
    refine congrArg some ?_
    calc Instruction.unplaced { i' with target := (f.length + before.length : Nat) }
        = { i'.unplaced with target := (f.length + before.length : Nat) } := rfl
      _ = { i.unplaced with target := (f.length : Int) + before.length } := by
          rw [hunplaced, Int.natCast_add]
      _ = Instruction.moved before.length { i with target := f.length } := by
          unfold Instruction.moved
          rw [if_pos ⟨hjump, hend⟩]
          rfl
  · have hcode := congrArg (fun code => code[position]?) h.code
    rw [List.getElem?_map, Array.getElem?_toList] at hcode
    rw [List.getElem?_map, Array.getElem?_toList, Array.getElem?_modify, if_neg (Ne.symm hposition),
      hcode]
    by_cases hlt : position < before.length
    · rw [List.getElem?_append_left hlt, List.getElem?_append_left hlt]
    · rw [List.getElem?_append_right (by omega), List.getElem?_append_right (by omega),
        List.getElem?_map, List.getElem?_map, Array.getElem?_toList, Array.getElem?_toList,
        Array.getElem?_modify, if_neg (by omega)]

theorem declareAll (h : Copies before f f') (names : List String) :
    Copies before (names.foldl Function.declare f) (names.foldl Function.declare f') := by
  induction names generalizing f f' with
  | nil => exact h
  | cons name rest ih => exact ih (h.declare name)

end Copies

/-- A function without code is a copy of itself. -/
theorem copies_new (name : String) (params : List String) :
    Copies [] (Function.new name params) (Function.new name params) := by
  unfold Function.new
  refine Copies.declareAll ⟨rfl, rfl, rfl, ?_, ⟨rfl, rfl⟩, rfl⟩ params
  intro other marker hmarker
  change none = some marker at hmarker
  cases hmarker

end Function

end LineScript.Code

namespace LineScript.Compile

open LineScript.Code

/-! ## Drafts -/

namespace Draft

/-- The top level that is set aside is a copy too, when there is one. -/
def Aside : Option (List Instruction) → Option Function → Option Function → Prop
  | none, none, none => True
  | some before, some f, some f' => f.Copies before f'
  | _, _, _ => False

/-- A draft with the same tokens left, and possibly more behind them, and the same names, whose
functions are copies: the one that receives instructions has some of its own before them, and so has
the top level that is set aside. -/
structure Echoes (own : List Instruction) (outer? : Option (List Instruction)) (more : List Token)
    (d d' : Draft) : Prop where
  rest : (d.rest ++ more).map Token.unplaced = d'.rest.map Token.unplaced
  named : ∀ t ∈ d.rest ++ more, t.kind = .identifier → t.text ≠ topLevel
  body : d.body.Copies own d'.body
  outer : Aside outer? d.outer? d'.outer?
  functions : ∀ name, (d.functions.get? name).Rel (Function.Copies []) (d'.functions.get? name)
  natives : d'.natives = d.natives

namespace Echoes

variable {own : List Instruction} {outer? : Option (List Instruction)} {more : List Token}
  {d d' : Draft}

/-! ### Tokens -/

theorem tokens_eq (h : d.Echoes own outer? [] d') :
    d.rest.map Token.unplaced = d'.rest.map Token.unplaced := by
  rw [← h.rest, List.append_nil]

theorem peek_eq (h : d.Echoes own outer? [] d') : d'.peek.unplaced = d.peek.unplaced := by
  have hrest := h.tokens_eq
  unfold peek
  cases hd : d.rest with
  | nil =>
      rw [hd] at hrest
      rw [List.map_eq_nil_iff.mp hrest.symm]
      rfl
  | cons t rest =>
      rw [hd, List.map_cons] at hrest
      obtain ⟨t', rest', hd', ht, -⟩ := List.map_eq_cons_iff.mp hrest.symm
      rw [hd']
      exact ht

theorem kind_eq (h : d.Echoes own outer? [] d') : d'.peek.kind = d.peek.kind := by
  have hkind : d'.peek.unplaced.kind = d.peek.unplaced.kind := by rw [h.peek_eq]
  exact hkind

theorem text_eq (h : d.Echoes own outer? [] d') : d'.peek.text = d.peek.text := by
  have htext : d'.peek.unplaced.text = d.peek.unplaced.text := by rw [h.peek_eq]
  exact htext

theorem value_eq (h : d.Echoes own outer? [] d') : d'.peek.value = d.peek.value := by
  have hvalue : d'.peek.unplaced.value = d.peek.unplaced.value := by rw [h.peek_eq]
  exact hvalue

theorem sees_eq (h : d.Echoes own outer? [] d') (kind : TokenKind) : d'.sees kind = d.sees kind := by
  unfold sees
  rw [h.kind_eq]

theorem next (h : d.Echoes own outer? [] d') : d.next.Echoes own outer? [] d'.next := by
  have hnext : ∀ d : Draft, ∃ consumed?,
      d.next = { d with rest := d.rest.tail, consumed? := consumed? } := by
    intro d
    unfold Draft.next
    split
    · rename_i hrest
      exact ⟨d.consumed?, by rw [hrest, List.tail_nil, ← hrest]⟩
    · rename_i hrest
      exact ⟨_, by rw [hrest]; rfl⟩
  obtain ⟨consumed?, heq⟩ := hnext d
  obtain ⟨consumed?', heq'⟩ := hnext d'
  rw [heq, heq']
  refine ⟨?_, fun t ht => h.named t ?_, h.body, h.outer, h.functions, h.natives⟩
  · rw [List.append_nil, List.map_tail, List.map_tail, h.tokens_eq]
  · rw [List.append_nil] at ht ⊢
    exact List.mem_of_mem_tail ht

theorem peekSecond_kind_eq (h : d.Echoes own outer? [] d') :
    d'.peekSecond.kind = d.peekSecond.kind := by
  rw [← peek_next, ← peek_next]
  exact h.next.kind_eq

theorem skipLineBreaks (h : d.Echoes own outer? [] d') :
    d.skipLineBreaks.Echoes own outer? [] d'.skipLineBreaks := by
  obtain ⟨consumed?, heq⟩ := d.skipLineBreaks_eq
  obtain ⟨consumed?', heq'⟩ := d'.skipLineBreaks_eq
  have hdrop : ∀ tokens : List Token,
      (tokens.dropWhile (fun t => t.kind = .lineBreak)).map Token.unplaced =
        (tokens.map Token.unplaced).dropWhile (fun t => t.kind = .lineBreak) := by
    intro tokens
    rw [List.dropWhile_map]
    rfl
  rw [heq, heq']
  refine ⟨?_, fun t ht => h.named t ?_, h.body, h.outer, h.functions, h.natives⟩
  · rw [List.append_nil, hdrop, hdrop, h.tokens_eq]
  · rw [List.append_nil] at ht ⊢
    exact (List.dropWhile_suffix _).subset ht

/-! ### Instructions -/

theorem address_eq (h : d.Echoes own outer? more d') : d'.address = d.address + own.length :=
  h.body.length_eq

theorem emitInstruction (h : d.Echoes own outer? more d') {i i' : Instruction}
    (hi : i'.unplaced = i.moved own.length) :
    (d.emitInstruction i).Echoes own outer? more (d'.emitInstruction i') :=
  ⟨h.rest, h.named, h.body.emit hi, h.outer, h.functions, h.natives⟩

theorem emit (h : d.Echoes own outer? more d') {op : Opcode} (hop : op.isJump = false) :
    (d.emit op).Echoes own outer? more (d'.emit op) :=
  h.emitInstruction (Instruction.moved_of_not_isJump hop _).symm

theorem emitValue (h : d.Echoes own outer? more d') (literal : Literal) :
    (d.emitValue literal).Echoes own outer? more (d'.emitValue literal) :=
  h.emitInstruction (Instruction.moved_of_not_isJump rfl _).symm

theorem emitName (h : d.Echoes own outer? more d') {op : Opcode} (hop : op.isJump = false)
    (name : String) : (d.emitName op name).Echoes own outer? more (d'.emitName op name) :=
  h.emitInstruction (Instruction.moved_of_not_isJump hop _).symm

theorem emitJump (h : d.Echoes own outer? more d') (op : Opcode) :
    (d.emitJump op).Echoes own outer? more (d'.emitJump op) :=
  ⟨h.rest, h.named, h.body.emit (Instruction.moved_of_unresolved rfl _).symm, h.outer, h.functions,
    h.natives⟩

theorem emitJumpTo (h : d.Echoes own outer? more d') {op : Opcode} (hop : op.isJump = true)
    (target : Nat) :
    (d.emitJumpTo op target).Echoes own outer? more (d'.emitJumpTo op (target + own.length)) := by
  refine ⟨h.rest, h.named, h.body.emit ?_, h.outer, h.functions, h.natives⟩
  have htarget : (target : Int) ≠ unresolvedTarget := by
    unfold unresolvedTarget
    omega
  unfold Instruction.moved
  rw [if_pos ⟨hop, htarget⟩]
  rfl

theorem patchHere (h : d.Echoes own outer? more d') {address : Nat} {a : Draft}
    (ha : d.patchHere address = .ok a) :
    ∃ a', d'.patchHere (address + own.length) = .ok a' ∧ a.Echoes own outer? more a' := by
  obtain ⟨body, hbody, rfl⟩ := patchHere_eq_ok ha
  obtain ⟨body', hbody', hcopies⟩ := h.body.patchHere hbody
  refine ⟨{ d' with body := body' }, ?_, h.rest, h.named, hcopies, h.outer, h.functions, h.natives⟩
  unfold Draft.patchHere
  rw [hbody']

/-! ### Names -/

theorem sees?_eq (h : d.Echoes own outer? more d') (name : String) : d'.sees? name = d.sees? name := by
  have houter := h.outer
  unfold sees?
  rw [h.body.declares_eq]
  cases outer? <;> cases hd : d.outer? <;> cases hd' : d'.outer? <;> rw [hd, hd'] at houter <;>
    first | rfl | exact houter.elim | skip
  rw [Option.any_some, Option.any_some, Function.Copies.declares_eq houter]

theorem arity?_eq (h : d.Echoes own outer? more d') (name : String) :
    d'.arity? name = d.arity? name := by
  have hfunction := h.functions name
  unfold arity?
  rw [h.natives]
  generalize d.functions.get? name = f at hfunction ⊢
  generalize d'.functions.get? name = f' at hfunction ⊢
  cases hfunction with
  | none => rfl
  | some hcopies => exact congrArg some hcopies.arity_eq

theorem declare (h : d.Echoes own outer? more d') (name : String) :
    (d.declare name).Echoes own outer? more (d'.declare name) :=
  ⟨h.rest, h.named, h.body.declare name, h.outer, h.functions, h.natives⟩

end Echoes

end Draft

/-! ## Results -/

/-- A result that, when the other compilation comes to one, is the same here; unless the
other is at the end of its input, or an error is raised that no script causes. -/
def Repeated {α : Type} (gone : α → Prop) (same : α → α → Prop) (r r' : Except CompileError α) :
    Prop :=
  match r with
  | .ok a => gone a ∨ (∃ a', r' = .ok a' ∧ same a a') ∨ ∃ e, r' = .error e ∧ e.kind = .internalError
  | .error _ => True

section

variable {α β : Type} {gone : α → Prop} {same : α → α → Prop} {gone' : β → Prop}
  {same' : β → β → Prop}

theorem repeated_ok {a a' : α} (h : same a a') : Repeated gone same (.ok a) (.ok a') :=
  .inr (.inl ⟨a', rfl, h⟩)

theorem Repeated.of_ok {r r' : Except CompileError α} (h : Repeated (fun _ => False) same r r') {a : α}
    (hr : r = .ok a) :
    (∃ a', r' = .ok a' ∧ same a a') ∨ ∃ e, r' = .error e ∧ e.kind = .internalError := by
  subst hr
  exact h.resolve_left id

theorem Repeated.bind {r r' : Except CompileError α} (h : Repeated gone same r r')
    {f f' : α → Except CompileError β}
    (hgone : ∀ a, r = .ok a → gone a → Repeated gone' same' (f a) (r' >>= f'))
    (hsame : ∀ a a', r = .ok a → same a a' → Repeated gone' same' (f a) (f' a')) :
    Repeated gone' same' (r >>= f) (r' >>= f') := by
  cases r with
  | error e => trivial
  | ok a =>
      obtain ha | ⟨a', rfl, ha⟩ | ⟨e, rfl, he⟩ := h
      · exact hgone a rfl ha
      · exact hsame a a' rfl ha
      · change Repeated gone' same' (f a) (.error e)
        cases f a with
        | error e' => trivial
        | ok b => exact .inr (.inr ⟨e, rfl, he⟩)

end

/-- Both compilations go on side by side. -/
abbrev Echoed (own : List Instruction) (outer? : Option (List Instruction)) (r r' : Result) : Prop :=
  Repeated (fun _ => False) (Draft.Echoes own outer? []) r r'

section

variable {own : List Instruction} {outer? : Option (List Instruction)} {d d' : Draft}

theorem Echoed.bind {α : Type} {gone : α → Prop} {same : α → α → Prop} {r r' : Result}
    (h : Echoed own outer? r r') {f f' : Draft → Except CompileError α}
    (hsame : ∀ d d', r = .ok d → d.Echoes own outer? [] d' → Repeated gone same (f d) (f' d')) :
    Repeated gone same (r >>= f) (r' >>= f') :=
  Repeated.bind h (fun _ _ => False.elim) hsame

theorem Draft.Echoes.expect (h : d.Echoes own outer? [] d') (kind : TokenKind) :
    Echoed own outer? (d.expect kind) (d'.expect kind) := by
  unfold Draft.expect
  rw [h.sees_eq]
  split
  · exact repeated_ok h.next
  · trivial

theorem Draft.Echoes.expectText {α : Type} {gone : α → Prop} {same : α → α → Prop}
    (h : d.Echoes own outer? [] d') (kind : TokenKind) {f f' : String × Draft → Except CompileError α}
    (hf : ∀ a a', d.expect kind = .ok a → a.Echoes own outer? [] a' →
      Repeated gone same (f (d.peek.text, a)) (f' (d.peek.text, a'))) :
    Repeated gone same (d.expectText kind >>= f) (d'.expectText kind >>= f') := by
  rw [expectText_bind, expectText_bind, h.text_eq]
  exact (h.expect kind).bind hf

/-- A placeholder is resolved in both, and nothing but the body changes. -/
theorem Draft.Echoes.patched {more : List Token} {same : Draft → Draft → Prop}
    (h : d.Echoes own outer? more d') {address address' : Nat}
    (haddress : address' = address + own.length)
    (hsame : ∀ body a', ({ d with body := body } : Draft).Echoes own outer? more a' →
      same { d with body := body } a') :
    Repeated (fun _ => False) same (d.patchHere address) (d'.patchHere address') := by
  cases ha : d.patchHere address with
  | error e => trivial
  | ok a =>
      obtain ⟨a', ha', hechoes⟩ := h.patchHere ha
      obtain ⟨body, -, rfl⟩ := patchHere_eq_ok ha
      rw [haddress, ha']
      exact repeated_ok (hsame body a' hechoes)

end

/-! ## Expressions -/

namespace Precedence

variable {own : List Instruction} {outer? : Option (List Instruction)} {d d' : Draft}

theorem echoes_concluding (h : d.Echoes own outer? [] d') (enclosed : Bool) :
    (concluding enclosed d).Echoes own outer? [] (concluding enclosed d') := by
  unfold concluding
  rw [h.kind_eq]
  split
  · exact ⟨h.rest, h.named, h.body, h.outer, h.functions, h.natives⟩
  · exact h

theorem echoes_begin (h : d.Echoes own outer? [] d') (o : BinaryOp) :
    (begin o d).Echoes own outer? [] (begin o d') := by
  unfold begin
  split
  · exact h.emitJump _
  · exact h

theorem echoes_apply (h : d.Echoes own outer? [] d') (o : UnaryOp) :
    (apply o d).Echoes own outer? [] (apply o d') := by
  unfold apply
  split
  · rename_i op hop
    refine h.emit ?_
    cases o <;> cases hop <;> rfl
  · exact h

theorem echoed_combine (h : d.Echoes own outer? [] d') (o : BinaryOp) {address address' : Nat}
    (haddress : address' = address + own.length) :
    Echoed own outer? (combine o address d) (combine o address' d') := by
  have hemit : (d.emit o.opcode).Echoes own outer? [] (d'.emit o.opcode) := h.emit (by cases o <;> rfl)
  unfold combine
  split
  · exact hemit.patched haddress fun _ _ h => h
  · exact repeated_ok hemit

theorem echoed_close (h : d.Echoes own outer? [] d') : Echoed own outer? (close d) (close d') := by
  unfold close
  rw [h.sees_eq]
  split
  · exact repeated_ok h.next
  · trivial

/-- Both compilations read the same, as long as fewer than `bound` tokens are left. -/
structure Echoing (own : List Instruction) (outer? : Option (List Instruction)) (bound : Nat) :
    Prop where
  climb : ∀ (level : Nat) (enclosed fresh : Bool) {d d' : Draft}, d.rest.length < bound →
    d.Echoes own outer? [] d' →
    Echoed own outer? (climb level enclosed fresh d) (climb level enclosed fresh d')
  operators : ∀ (level : Nat) (enclosed : Bool) {d d' : Draft}, d.rest.length < bound →
    d.Echoes own outer? [] d' →
    Echoed own outer? (operators level enclosed d) (operators level enclosed d')
  suffixes : ∀ {d d' : Draft}, d.rest.length < bound → d.Echoes own outer? [] d' →
    Echoed own outer? (suffixes d) (suffixes d')
  arguments : ∀ {d d' : Draft} (count : Nat), d.rest.length < bound → d.Echoes own outer? [] d' →
    Repeated (fun _ => False) (fun r r' => r.1.Echoes own outer? [] r'.1 ∧ r'.2 = r.2)
      (arguments d count) (arguments d' count)
  elements : ∀ {d d' : Draft}, d.rest.length < bound → d.Echoes own outer? [] d' →
    Echoed own outer? (elements d) (elements d')
  members : ∀ {d d' : Draft}, d.rest.length < bound → d.Echoes own outer? [] d' →
    Echoed own outer? (members d) (members d')

namespace Echoing

variable {bound : Nat} (echoing : Echoing own outer? bound)
include echoing

theorem operators_step (level : Nat) (enclosed : Bool) (hbound : d.rest.length < bound + 1)
    (h : d.Echoes own outer? [] d') :
    Echoed own outer? (Precedence.operators level enclosed d)
      (Precedence.operators level enclosed d') := by
  rw [operators_eq, operators_eq, h.kind_eq]
  split
  · trivial
  · cases ho : BinaryOp.ofKind? d.peek.kind with
    | none => exact repeated_ok h
    | some o =>
        dsimp only
        split
        · exact repeated_ok h
        · have hnext : d.next.rest.length < d.rest.length :=
            Draft.length_next_lt fun hend => by rw [hend] at ho; cases ho
          apply (echoing.climb (o.level + 1) enclosed false (by rw [rest_begin]; omega)
            (echoes_begin h.next o)).bind
          intro d₁ d₁' hclimb h₁
          have hlt := length_climb_lt hclimb
          rw [rest_begin] at hlt
          apply (echoed_combine (echoes_concluding h₁ enclosed) o h.next.address_eq).bind
          intro d₂ d₂' hcombine h₂
          have hrest := rest_of_combine hcombine
          rw [rest_concluding] at hrest
          exact echoing.operators level enclosed (by rw [hrest]; omega) h₂

theorem suffixes_step (hbound : d.rest.length < bound + 1) (h : d.Echoes own outer? [] d') :
    Echoed own outer? (Precedence.suffixes d) (Precedence.suffixes d') := by
  rw [suffixes_eq, suffixes_eq, h.kind_eq]
  cases hkind : d.peek.kind
  case leftBracket =>
    have hnext := Draft.length_next_lt (d := d) (by rw [hkind]; decide)
    have hskip := d.next.length_skipLineBreaks_le
    apply (echoing.climb 0 false true (by omega) h.next.skipLineBreaks).bind
    intro d₁ d₁' hexpression h₁
    have hlt := length_climb_lt hexpression
    have hskip₁ := d₁.length_skipLineBreaks_le
    apply (h₁.skipLineBreaks.expect .rightBracket).bind
    intro d₂ d₂' hexpect h₂
    have hlt₂ := length_expect_lt (by decide) hexpect
    exact echoing.suffixes (by rw [Draft.rest_emit]; omega) (h₂.emit rfl)
  case dot =>
    have hnext := Draft.length_next_lt (d := d) (by rw [hkind]; decide)
    apply h.next.expectText
    intro d₁ d₁' hexpect h₁
    have hlt := length_expect_lt (by decide) hexpect
    exact echoing.suffixes (by rw [Draft.rest_emitName]; omega) (h₁.emitName rfl _)
  all_goals exact repeated_ok h

theorem call_step {name name' : Token} (hname : name'.text = name.text)
    (hbound : d.rest.length < bound + 1) (h : d.Echoes own outer? [] d')
    (hparen : d.peek.kind = .leftParen) :
    Echoed own outer? (Precedence.call name d) (Precedence.call name' d') := by
  have hnext := Draft.length_next_lt (d := d) (by rw [hparen]; decide)
  have hskip := d.next.length_skipLineBreaks_le
  rw [call_eq, call_eq, hname, h.arity?_eq]
  cases d.arity? name.text with
  | none => trivial
  | some arity =>
      have hinner := h.next.skipLineBreaks
      have hgiven : Repeated (fun _ => False)
          (fun r r' : Draft × Nat => r.1.Echoes own outer? [] r'.1 ∧ r'.2 = r.2)
          (if d.next.skipLineBreaks.sees .rightParen then .ok (d.next.skipLineBreaks, 0)
            else Precedence.arguments d.next.skipLineBreaks 0)
          (if d'.next.skipLineBreaks.sees .rightParen then .ok (d'.next.skipLineBreaks, 0)
            else Precedence.arguments d'.next.skipLineBreaks 0) := by
        rw [hinner.sees_eq]
        split
        · exact repeated_ok ⟨hinner, rfl⟩
        · exact echoing.arguments 0 (by omega) hinner
      apply hgiven.bind (fun _ _ => False.elim)
      rintro ⟨d₁, count⟩ ⟨d₁', count'⟩ - ⟨h₁, hcount⟩
      dsimp only at h₁ hcount ⊢
      subst hcount
      apply (h₁.skipLineBreaks.expect .rightParen).bind
      intro d₂ d₂' _ h₂
      split
      · exact repeated_ok (h₂.emitName rfl _)
      · trivial

theorem primary_step (fresh : Bool) (hbound : d.rest.length < bound + 1)
    (h : d.Echoes own outer? [] d') :
    Echoed own outer? (Precedence.primary fresh d) (Precedence.primary fresh d') := by
  have hskip := d.next.length_skipLineBreaks_le
  rw [primary_eq, primary_eq, h.kind_eq]
  by_cases hend : d.peek.kind = .endOfInput
  · rw [hend]
    trivial
  have hnext := Draft.length_next_lt hend
  cases hkind : d.peek.kind
  case number | string | boolean =>
    dsimp only
    rw [h.value_eq]
    exact repeated_ok (h.next.emitValue _)
  case null => exact repeated_ok (h.next.emitValue _)
  case identifier =>
    dsimp only
    rw [h.peekSecond_kind_eq, h.text_eq, h.sees?_eq]
    split
    · rename_i hparen
      exact echoing.call_step h.text_eq (by omega) h.next (by rw [Draft.peek_next]; exact hparen)
    · split
      · exact repeated_ok (h.next.emitName rfl _)
      · trivial
  case leftParen =>
    apply (echoing.climb 0 true false (by omega) h.next).bind
    intro d₁ d₁' _ h₁
    exact echoed_close h₁
  case leftBracket =>
    dsimp only
    split
    · apply (echoing.elements (by rw [Draft.rest_emit]; omega) (h.next.skipLineBreaks.emit rfl)).bind
      intro d₁ d₁' _ h₁
      exact h₁.skipLineBreaks.expect .rightBracket
    · trivial
  case leftBrace =>
    apply (echoing.members (by rw [Draft.rest_emit]; omega) (h.next.skipLineBreaks.emit rfl)).bind
    intro d₁ d₁' _ h₁
    exact h₁.skipLineBreaks.expect .rightBrace
  all_goals trivial

theorem operand_step (enclosed fresh : Bool) (hbound : d.rest.length < bound + 1)
    (h : d.Echoes own outer? [] d') :
    Echoed own outer? (Precedence.operand enclosed fresh d)
      (Precedence.operand enclosed fresh d') := by
  rw [operand_eq, operand_eq, h.kind_eq]
  cases ho : UnaryOp.ofKind? d.peek.kind with
  | some o =>
      have hnext : d.next.rest.length < d.rest.length :=
        Draft.length_next_lt fun hend => by rw [hend] at ho; cases ho
      apply (echoing.climb o.level enclosed false (by omega) h.next).bind
      intro d₁ d₁' _ h₁
      exact repeated_ok (echoes_apply (echoes_concluding h₁ enclosed) o)
  | none =>
      apply (echoing.primary_step fresh hbound h).bind
      intro d₁ d₁' hprimary h₁
      have hlt := length_primary_lt hprimary
      exact echoing.suffixes (by omega) h₁

theorem climb_step (level : Nat) (enclosed fresh : Bool) (hbound : d.rest.length < bound + 1)
    (h : d.Echoes own outer? [] d') :
    Echoed own outer? (Precedence.climb level enclosed fresh d)
      (Precedence.climb level enclosed fresh d') := by
  rw [climb_eq, climb_eq]
  apply (echoing.operand_step enclosed fresh hbound h).bind
  intro d₁ d₁' hoperand h₁
  have hlt := length_operand_lt hoperand
  exact echoing.operators level enclosed (by omega) h₁

theorem arguments_step (count : Nat) (hbound : d.rest.length < bound + 1)
    (h : d.Echoes own outer? [] d') :
    Repeated (fun _ => False) (fun r r' => r.1.Echoes own outer? [] r'.1 ∧ r'.2 = r.2)
      (Precedence.arguments d count) (Precedence.arguments d' count) := by
  rw [arguments_eq, arguments_eq]
  apply (echoing.climb_step 0 false true hbound h).bind
  intro d₁ d₁' hexpression h₁
  have hlt := length_climb_lt hexpression
  have hnext := d₁.length_next_le
  have hskip := d₁.next.length_skipLineBreaks_le
  rw [h₁.sees_eq]
  split
  · exact echoing.arguments (count + 1) (by omega) h₁.next.skipLineBreaks
  · exact repeated_ok ⟨h₁, rfl⟩

theorem elements_step (hbound : d.rest.length < bound + 1) (h : d.Echoes own outer? [] d') :
    Echoed own outer? (Precedence.elements d) (Precedence.elements d') := by
  rw [elements_eq, elements_eq, h.sees_eq]
  split
  · exact repeated_ok h
  · apply (echoing.climb_step 0 false true hbound h).bind
    intro d₁ d₁' hexpression h₁
    have hlt := length_climb_lt hexpression
    have hnext := (d₁.emit .append).length_next_le
    have hskip := (d₁.emit .append).next.length_skipLineBreaks_le
    have h₂ : (d₁.emit .append).Echoes own outer? [] (d₁'.emit .append) := h₁.emit rfl
    rw [Draft.rest_emit] at hnext
    rw [h₂.sees_eq]
    split
    · exact echoing.elements (by omega) h₂.next.skipLineBreaks
    · exact repeated_ok h₂

theorem members_step (hbound : d.rest.length < bound + 1) (h : d.Echoes own outer? [] d') :
    Echoed own outer? (Precedence.members d) (Precedence.members d') := by
  rw [members_eq, members_eq, h.sees_eq]
  split
  · exact repeated_ok h
  · apply h.expectText
    intro d₁ d₁' hname h₁
    have hlt₁ := length_expect_lt (by decide) hname
    apply (h₁.expect .equal).bind
    intro d₂ d₂' hequal h₂
    have hlt₂ := length_expect_lt (by decide) hequal
    have hskip₂ := d₂.length_skipLineBreaks_le
    apply (echoing.climb 0 false true (by omega) h₂.skipLineBreaks).bind
    intro d₃ d₃' hexpression h₃
    have hlt₃ := length_climb_lt hexpression
    have hnext := (d₃.emitName .set d.peek.text).length_next_le
    have hskip := (d₃.emitName .set d.peek.text).next.length_skipLineBreaks_le
    have h₄ : (d₃.emitName .set d.peek.text).Echoes own outer? [] (d₃'.emitName .set d.peek.text) :=
      h₃.emitName rfl _
    rw [Draft.rest_emitName] at hnext
    rw [h₄.sees_eq]
    split
    · exact echoing.members (by omega) h₄.next.skipLineBreaks
    · exact repeated_ok h₄

end Echoing

theorem echoing (own : List Instruction) (outer? : Option (List Instruction)) (bound : Nat) :
    Echoing own outer? bound := by
  induction bound with
  | zero => constructor <;> intros <;> omega
  | succ bound ih =>
      exact {
        climb := fun level enclosed fresh _ _ h => ih.climb_step level enclosed fresh h
        operators := fun level enclosed _ _ h => ih.operators_step level enclosed h
        suffixes := fun h => ih.suffixes_step h
        arguments := fun count h => ih.arguments_step count h
        elements := fun h => ih.elements_step h
        members := fun h => ih.members_step h }

end Precedence

/-- The same expression is compiled to the same code. -/
theorem echoed_expression {own : List Instruction} {outer? : Option (List Instruction)}
    {d d' : Draft} (h : d.Echoes own outer? [] d') :
    Echoed own outer? (expression d) (expression d') := by
  rw [Precedence.expression_eq, Precedence.expression_eq]
  exact (Precedence.echoing own outer? (d.rest.length + 1)).climb 0 false true
    (Nat.lt_succ_self _) h

end LineScript.Compile
