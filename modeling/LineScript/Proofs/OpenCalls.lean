/-
# Calls that are still open

What can be seen of a script that stops before its end, without compiling it: which calls
have begun, how many arguments each of them has, and whether another one can follow. The
compiler counts arguments when the closing parenthesis is there, so a call may have gone
wrong long before anything is said about it.

The inside of a call is followed one token at a time. An argument may be the last of its
line only if it is the last of its call: behind a line break no comma is read, and what
can follow is the closing parenthesis.
-/

import LineScript.Compile.Compiler
import LineScript.Proofs.Drafts

namespace LineScript.Compile

/-! ## The inside of a bracket -/

/-- Where the inside of a bracket has got to. -/
inductive Stage where
  /-- Nothing has been read since the bracket or the last comma. -/
  | fresh
  /-- An item has begun. -/
  | begun
  /-- A line break has followed an item, so only the closing bracket may come. -/
  | ended
  deriving DecidableEq, Repr

/-- What has been read of the inside of a bracket. -/
structure Inside where
  /-- The brackets opened since and not closed. -/
  depth : Nat := 0
  /-- The commas between its own items. -/
  commas : Nat := 0
  stage : Stage := .fresh
  deriving DecidableEq, Repr

/-- What becomes of the inside of a bracket. -/
inductive Extent where
  /-- The bracket is not closed. -/
  | unclosed (inside : Inside)
  /-- The bracket is closed behind so many items. -/
  | closed (items : Nat)
  /-- The bracket cannot be that of a call. -/
  | broken
  deriving DecidableEq, Repr

namespace Inside

/-- The closing bracket of the inside itself. No comma may stand before it. -/
def close (i : Inside) : Extent :=
  match i.stage with
  | .fresh => if i.commas = 0 then .closed 0 else .broken
  | .begun | .ended => .closed (i.commas + 1)

/-- Reads a token. -/
def read (i : Inside) (t : Token) : Extent :=
  match t.kind with
  | .lineBreak =>
    .unclosed (if i.depth = 0 && i.stage = .begun then { i with stage := .ended } else i)
  | .rightParen | .rightBracket | .rightBrace =>
    if i.depth = 0 then i.close else .unclosed { i with depth := i.depth - 1 }
  | kind =>
    if i.stage = .ended then .broken
    else
      match kind with
      | .leftParen | .leftBracket | .leftBrace =>
        .unclosed { i with depth := i.depth + 1, stage := .begun }
      | .comma =>
        .unclosed (if i.depth = 0 then { i with commas := i.commas + 1, stage := .fresh } else i)
      | _ => .unclosed { i with stage := .begun }

/-- Reads tokens, up to the bracket that closes the inside. -/
def extent (i : Inside) : List Token → Extent
  | [] => .unclosed i
  | t :: rest =>
    match i.read t with
    | .unclosed i => i.extent rest
    | .closed items => .closed items
    | .broken => .broken

/-- Whether the inside of a call can still get the given number of arguments. -/
def fits (i : Inside) (arity : Nat) : Bool :=
  match i.stage with
  | .fresh => i.commas = 0 || i.commas < arity
  | .begun => i.commas < arity
  | .ended => i.commas + 1 = arity

/-- The inside once an item has begun. -/
def item (i : Inside) : Inside := { i with stage := .begun }

@[simp]
theorem item_item (i : Inside) : i.item.item = i.item := rfl

theorem item_of_begun {i : Inside} (h : i.stage = .begun) : i.item = i := by
  cases i
  cases h
  rfl

/-- A bracket that gets its items could have got them all along. -/
theorem fits_of_closed {i : Inside} {tokens : List Token} {arity : Nat}
    (h : i.extent tokens = .closed arity) : i.fits arity = true := by
  induction tokens generalizing i with
  | nil => cases h
  | cons t rest ih =>
      obtain ⟨depth, commas, stage⟩ := i
      have hunclosed : ∀ i', Inside.read ⟨depth, commas, stage⟩ t = .unclosed i' →
          i'.fits arity = true := by
        intro i' hread
        rw [extent, hread] at h
        exact ih h
      have hclosed : ∀ items, Inside.read ⟨depth, commas, stage⟩ t = .closed items →
          items = arity := by
        intro items hread
        rw [extent, hread] at h
        exact Extent.closed.inj h
      have hbroken : Inside.read ⟨depth, commas, stage⟩ t ≠ .broken := by
        intro hread
        rw [extent, hread] at h
        cases h
      unfold read at hunclosed hclosed hbroken
      unfold fits at hunclosed ⊢
      cases stage <;> grind [close]

end Inside

/-- What becomes of a bracket when more tokens follow. -/
def Extent.followed (more : List Token) : Extent → Extent
  | .unclosed i => i.extent more
  | .closed items => .closed items
  | .broken => .broken

theorem Inside.extent_append (i : Inside) (tokens more : List Token) :
    i.extent (tokens ++ more) = (i.extent tokens).followed more := by
  induction tokens generalizing i with
  | nil => rfl
  | cons t rest ih =>
      rw [List.cons_append, extent, extent]
      cases i.read t with
      | unclosed i => exact ih i
      | closed items => rfl
      | broken => rfl

/-! ## Calls -/

/-- The calls of a script in order, each with the name that is called and what becomes of
the inside of its parentheses. The parameters of a function are no call. -/
def calls : List Token → List (String × Extent)
  | t :: u :: rest =>
    if t.kind = .func then calls rest
    else if t.kind = .identifier ∧ u.kind = .leftParen then
      (t.text, Inside.extent {} rest) :: calls (u :: rest)
    else calls (u :: rest)
  | _ => []

/-- The number of parameters up to the closing parenthesis. -/
def parameterCount? : List Token → Option Nat
  | [] => none
  | t :: rest =>
    if t.kind = .rightParen then some 0
    else if t.kind = .identifier then (parameterCount? rest).map (· + 1)
    else parameterCount? rest

/-- The number of parameters of the function with the given name, if the tokens define it. -/
def declared? (name : String) : List Token → Option Nat
  | [] => none
  | t :: rest =>
    if t.kind = .func && rest.head?.any (·.text = name) then parameterCount? (rest.drop 2)
    else declared? name rest

/-- Whether every call that is open can still get the arguments that it takes. -/
def callsFit (arity? : String → Option Nat) (tokens : List Token) : Bool :=
  (calls tokens).all fun (name, extent) =>
    match arity? name, extent with
    | some arity, .unclosed i => i.fits arity
    | _, _ => true

/-- Whether a call is complete and has the arguments that it takes. -/
def Right (arity? : String → Option Nat) (call : String × Extent) : Prop :=
  ∃ arity, arity? call.1 = some arity ∧ call.2 = .closed arity

theorem calls_func {t u : Token} (h : t.kind = .func) (rest : List Token) :
    calls (t :: u :: rest) = calls rest := by
  rw [calls, if_pos h]

theorem calls_of_call {t u : Token} (ht : t.kind = .identifier) (hu : u.kind = .leftParen)
    (rest : List Token) :
    calls (t :: u :: rest) = (t.text, Inside.extent {} rest) :: calls (u :: rest) := by
  rw [calls, if_neg (by rw [ht]; decide), if_pos ⟨ht, hu⟩]

theorem calls_cons {t : Token} {rest : List Token} (hfunc : t.kind ≠ .func)
    (hcall : t.kind = .identifier → ∀ u, rest.head? = some u → u.kind ≠ .leftParen) :
    calls (t :: rest) = calls rest := by
  cases rest with
  | nil => rfl
  | cons u rest =>
      rw [calls, if_neg hfunc, if_neg]
      rintro ⟨ht, hu⟩
      exact hcall ht u rfl hu

/-- A call goes on in the tokens that follow. -/
theorem mem_calls_append {call : String × Extent} {tokens : List Token} (more : List Token)
    (h : call ∈ calls tokens) : (call.1, call.2.followed more) ∈ calls (tokens ++ more) := by
  fun_induction calls tokens with
  | case1 t u rest hfunc ih =>
      rw [List.cons_append, List.cons_append, calls_func hfunc]
      exact ih h
  | case2 t u rest _ hcall ih =>
      rw [List.cons_append, List.cons_append, calls_of_call hcall.1 hcall.2]
      obtain rfl | h := List.mem_cons.mp h
      · rw [Inside.extent_append]
        exact List.mem_cons_self
      · exact List.mem_cons_of_mem _ (ih h)
  | case3 t u rest hfunc hcall ih =>
      rw [List.cons_append, List.cons_append, calls, if_neg hfunc, if_neg hcall]
      exact ih h
  | case4 => cases h

theorem parameterCount?_append {tokens : List Token} {count : Nat} (more : List Token)
    (h : parameterCount? tokens = some count) : parameterCount? (tokens ++ more) = some count := by
  induction tokens generalizing count with
  | nil => cases h
  | cons t rest ih =>
      rw [List.cons_append, parameterCount?]
      rw [parameterCount?] at h
      split
      · rename_i hclose
        rwa [if_pos hclose] at h
      · rename_i hclose
        rw [if_neg hclose] at h
        split
        · rename_i hname
          rw [if_pos hname] at h
          obtain ⟨n, hn, rfl⟩ := Option.map_eq_some_iff.mp h
          rw [ih hn]
          rfl
        · rename_i hname
          rw [if_neg hname] at h
          exact ih h

theorem declared?_append {name : String} {tokens : List Token} {count : Nat} (more : List Token)
    (h : declared? name tokens = some count) : declared? name (tokens ++ more) = some count := by
  induction tokens with
  | nil => cases h
  | cons t rest ih =>
      cases rest with
      | nil =>
          rw [declared?, if_neg (by simp)] at h
          cases h
      | cons u rest =>
          rw [List.cons_append, List.cons_append, declared?]
          rw [declared?] at h
          rw [List.head?_cons] at h ⊢
          split
          · rename_i hheader
            rw [if_pos hheader] at h
            cases rest with
            | nil => cases h
            | cons v rest => exact parameterCount?_append more h
          · rename_i hheader
            rw [if_neg hheader] at h
            exact ih h

/-- A script that goes on to one whose calls are all right has only open calls that can
still get their arguments. -/
theorem callsFit_of_right {arity? arity?' : String → Option Nat} {tokens : List Token}
    (more : List Token) (h : ∀ call ∈ calls (tokens ++ more), Right arity?' call)
    (harity : ∀ name arity, arity? name = some arity → arity?' name = some arity) :
    callsFit arity? tokens = true := by
  refine List.all_eq_true.mpr ?_
  rintro ⟨name, extent⟩ hcall
  obtain ⟨arity, hname, hclosed⟩ := h _ (mem_calls_append more hcall)
  dsimp only at hname hclosed ⊢
  split
  · rename_i arity' i hname'
    have hsame := harity name arity' hname'
    rw [hname] at hsame
    cases hsame
    exact Inside.fits_of_closed hclosed
  · rfl

end LineScript.Compile
