/-
# What the operations on a draft change

Small facts about the operations of a compilation in progress: which of them
consume tokens, which append instructions, and what they leave alone. Later
modules reason about the compiler through these and do not open the operations.
-/

import Mathlib
import LineScript.Compile.Expression

namespace LineScript.Compile

open LineScript.Code

@[simp]
theorem ok_bind {ε α β : Type} (a : α) (f : α → Except ε β) :
    (Except.ok a >>= f) = f a := rfl

@[simp]
theorem error_bind {ε α β : Type} (e : ε) (f : α → Except ε β) :
    ((Except.error e : Except ε α) >>= f) = .error e := rfl

namespace Draft

/-! ## Consuming tokens -/

theorem rest_next (d : Draft) : d.next.rest = d.rest.tail := by
  unfold next
  cases hrest : d.rest with
  | nil => exact hrest
  | cons t rest => rfl

/-- A token other than the end of the input is really there. -/
theorem rest_eq_cons_of_peek {d : Draft} (h : d.peek.kind ≠ .endOfInput) :
    ∃ rest, d.rest = d.peek :: rest := by
  unfold peek at h ⊢
  cases hrest : d.rest with
  | nil =>
      rw [hrest] at h
      exact absurd rfl h
  | cons t rest => exact ⟨rest, rfl⟩

theorem length_next_lt {d : Draft} (h : d.peek.kind ≠ .endOfInput) :
    d.next.rest.length < d.rest.length := by
  obtain ⟨rest, hrest⟩ := rest_eq_cons_of_peek h
  rw [rest_next, hrest]
  exact Nat.lt_succ_self _

theorem length_next_le (d : Draft) : d.next.rest.length ≤ d.rest.length := by
  rw [rest_next, List.length_tail]
  exact Nat.sub_le _ _

theorem next_of_cons {d : Draft} {t : Token} {rest : List Token} (h : d.rest = t :: rest) :
    d.next = { d with rest := rest, consumed? := some t.line } := by
  unfold next
  rw [h]

theorem peek_of_cons {d : Draft} {t : Token} {rest : List Token} (h : d.rest = t :: rest) :
    d.peek = t := by
  unfold peek
  rw [h]
  rfl

theorem peekSecond_of_cons {d : Draft} {t u : Token} {rest : List Token}
    (h : d.rest = t :: u :: rest) : d.peekSecond = u := by
  unfold peekSecond
  rw [h]
  rfl

theorem lastLine_next (d : Draft) : d.next.lastLine = d.lastLine := by
  unfold next
  split <;> rfl

theorem peek_next (d : Draft) : d.next.peek = d.peekSecond := by
  unfold peek peekSecond
  rw [rest_next, lastLine_next]

theorem sees_iff {d : Draft} {kind : TokenKind} : d.sees kind = true ↔ d.peek.kind = kind := by
  unfold sees
  exact decide_eq_true_iff

/-- What consuming a run of line breaks leaves of a draft. -/
theorem skipLineBreaksFrom_eq (d : Draft) (tokens : List Token) (consumed? : Option Int) :
    ∃ last?, d.skipLineBreaksFrom tokens consumed? =
      { d with
        rest := tokens.dropWhile (fun t => t.kind = .lineBreak)
        consumed? := last? } := by
  induction tokens generalizing consumed? with
  | nil => exact ⟨consumed?, rfl⟩
  | cons t rest ih =>
      unfold skipLineBreaksFrom
      by_cases h : t.kind = .lineBreak
      · obtain ⟨last?, hlast⟩ := ih (some t.line)
        refine ⟨last?, ?_⟩
        rw [if_pos h, hlast, List.dropWhile_cons_of_pos (by simpa using h)]
      · refine ⟨consumed?, ?_⟩
        rw [if_neg h, List.dropWhile_cons_of_neg (by simpa using h)]

theorem skipLineBreaks_eq (d : Draft) :
    ∃ last?, d.skipLineBreaks =
      { d with
        rest := d.rest.dropWhile (fun t => t.kind = .lineBreak)
        consumed? := last? } :=
  d.skipLineBreaksFrom_eq d.rest d.consumed?

theorem rest_skipLineBreaks (d : Draft) :
    d.skipLineBreaks.rest = d.rest.dropWhile (fun t => t.kind = .lineBreak) := by
  obtain ⟨last?, h⟩ := d.skipLineBreaks_eq
  rw [h]

theorem length_skipLineBreaks_le (d : Draft) :
    d.skipLineBreaks.rest.length ≤ d.rest.length := by
  rw [rest_skipLineBreaks]
  exact (List.dropWhile_suffix _).length_le

/-- Without a line break in front, nothing is skipped. -/
theorem skipLineBreaks_of_ne {d : Draft} (h : d.peek.kind ≠ .lineBreak) :
    d.skipLineBreaks = d := by
  unfold skipLineBreaks
  unfold peek at h
  cases hrest : d.rest with
  | nil =>
      unfold skipLineBreaksFrom
      rw [← hrest]
  | cons t rest =>
      rw [hrest] at h
      have hkind : ¬t.kind = .lineBreak := h
      unfold skipLineBreaksFrom
      rw [if_neg hkind, ← hrest]

/-! ## Appending instructions -/

@[simp] theorem rest_emitInstruction (d : Draft) (i : Instruction) :
    (d.emitInstruction i).rest = d.rest := rfl

@[simp] theorem rest_emit (d : Draft) (op : Opcode) : (d.emit op).rest = d.rest := rfl

@[simp] theorem rest_emitValue (d : Draft) (l : Literal) : (d.emitValue l).rest = d.rest := rfl

@[simp] theorem rest_emitName (d : Draft) (op : Opcode) (name : String) :
    (d.emitName op name).rest = d.rest := rfl

@[simp] theorem rest_emitJump (d : Draft) (op : Opcode) : (d.emitJump op).rest = d.rest := rfl

@[simp] theorem rest_emitJumpTo (d : Draft) (op : Opcode) (target : Nat) :
    (d.emitJumpTo op target).rest = d.rest := rfl

@[simp] theorem rest_declare (d : Draft) (name : String) : (d.declare name).rest = d.rest := rfl

@[simp] theorem peek_emit (d : Draft) (op : Opcode) : (d.emit op).peek = d.peek := rfl

/-- Resolving a placeholder changes the body and nothing else. -/
theorem patchHere_eq_ok {d d' : Draft} {address : Nat} (h : d.patchHere address = .ok d') :
    ∃ body, d.body.patchHere address = .ok body ∧ d' = { d with body := body } := by
  unfold patchHere at h
  split at h
  · rename_i body hbody
    exact ⟨body, hbody, (Except.ok.inj h).symm⟩
  · cases h

theorem rest_of_patchHere {d d' : Draft} {address : Nat} (h : d.patchHere address = .ok d') :
    d'.rest = d.rest := by
  obtain ⟨body, -, rfl⟩ := patchHere_eq_ok h
  rfl

theorem patchAllHere_cons (d : Draft) (address : Nat) (rest : List Nat) :
    d.patchAllHere (address :: rest) = d.patchHere address >>= (·.patchAllHere rest) := by
  rw [patchAllHere]
  cases d.patchHere address <;> rfl

theorem rest_leave (d : Draft) : d.leave.rest = d.rest := by
  unfold leave
  split <;> rfl

end Draft

/-! ## Pending operators -/

theorem reduce_operator (d : Draft) (priority : Nat) (o : Operator) (skip? : Option Nat)
    (pending : List Pending) : reduce d priority (.operator o skip? :: pending) =
      if o.effective < priority then .ok (d, .operator o skip? :: pending)
      else emitOperator d o skip? >>= fun d => reduce d priority pending := by
  rw [reduce]
  cases emitOperator d o skip? <;> rfl

theorem emitPending_operator (d : Draft) (o : Operator) (skip? : Option Nat)
    (pending : List Pending) : emitPending d (.operator o skip? :: pending) =
      emitOperator d o skip? >>= fun d => emitPending d pending := by
  rw [emitPending]
  cases emitOperator d o skip? <;> rfl

end LineScript.Compile
