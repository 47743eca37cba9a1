/-
# Names in a program

A variable comes into being with its first assignment, in the order of the text: at
the top level it is a global, and in a function it is local unless the top level
already has a variable of that name. A function can be called from its own body and
from everything after it. A tree is well scoped when every variable it reads and
every function it calls is there at that point, every call has as many arguments as
the function has parameters, and functions stand outside other functions.

Nothing here mentions instructions or tokens; the compiler is compared with these
rules later.
-/

import LineScript.Proofs.Tree

namespace LineScript.Tree

open LineScript.Code

/-! ## Scopes -/

/-- The names that can be used at a point of a program. -/
structure Scope where
  /-- The variables of the function the point lies in. -/
  own : String → Bool
  /-- The variables of the top level, when the point lies in another function. -/
  top? : Option (String → Bool)
  /-- How many arguments each callable name takes. -/
  arity : String → Option Nat

namespace Scope

/-- Whether a variable can be read. -/
def sees (s : Scope) (name : String) : Bool :=
  s.own name || s.top?.any (· name)

/-- The scope after an assignment to a variable, which declares it when it cannot be
seen yet. -/
def assigned (s : Scope) (name : String) : Scope :=
  if s.sees name then s else { s with own := fun n => n = name || s.own n }

/-- The scope in which a function can be called. -/
def defined (s : Scope) (name : String) (params : List String) : Scope :=
  { s with arity := fun n => if n = name then some params.length else s.arity n }

/-- The scope in which the body of a function begins. -/
def inside (s : Scope) (name : String) (params : List String) : Scope :=
  { s.defined name params with own := params.contains, top? := some s.own }

@[simp]
theorem top?_assigned (s : Scope) (name : String) : (s.assigned name).top? = s.top? := by
  unfold assigned
  split <;> rfl

@[simp]
theorem arity_assigned (s : Scope) (name : String) : (s.assigned name).arity = s.arity := by
  unfold assigned
  split <;> rfl

end Scope

/-! ## Expressions -/

mutual

/-- Whether an expression uses only names of a scope. -/
def Expr.Scoped : Expr → Scope → Prop
  | .null, _ | .literal _, _ => True
  | .name text, s => s.sees text = true
  | .call function arguments, s =>
    s.arity function = some arguments.count ∧ arguments.Scoped s
  | .list items, s => items.Scoped s
  | .object members, s => members.Scoped s
  | .index container position, s => container.Scoped s ∧ position.Scoped s
  | .member object _, s => object.Scoped s
  | .unary _ operand, s => operand.Scoped s
  | .binary _ left right, s => left.Scoped s ∧ right.Scoped s

/-- Whether expressions in a row use only names of a scope. -/
def Exprs.Scoped : Exprs → Scope → Prop
  | .nil, _ => True
  | .cons first rest, s => first.Scoped s ∧ rest.Scoped s

/-- Whether the members of an object use only names of a scope. -/
def Members.Scoped : Members → Scope → Prop
  | .nil, _ => True
  | .cons _ value rest, s => value.Scoped s ∧ rest.Scoped s

end

/-! ## Statements -/

/-- The scope after a simple statement. -/
def Simple.after : Simple → Scope → Scope
  | .assign name _, s => s.assigned name
  | _, s => s

/-- Whether a simple statement uses only names of a scope. -/
def Simple.Scoped : Simple → Scope → Prop
  | .assign _ value, s => value.Scoped s
  | .assignElement name position value, s =>
    s.sees name = true ∧ position.Scoped s ∧ value.Scoped s
  | .assignMember name _ value, s => s.sees name = true ∧ value.Scoped s
  | .discard value, s => value.Scoped s
  | .giveBack none, _ => True
  | .giveBack (some value), s => value.Scoped s

mutual

/-- The scope after a statement. -/
def Stmt.after : Stmt → Scope → Scope
  | .simple x, s => x.after s
  | .when _ x, s => x.after s
  | .choose _ body arms, s => arms.after (body.after s)
  | .loop _ body, s => body.after s
  | .function name params _, s => s.defined name params

/-- The scope after statements in a row. -/
def Block.after : Block → Scope → Scope
  | .nil, s => s
  | .cons first rest, s => rest.after (first.after s)

/-- The scope after the further arms of a conditional. -/
def Arms.after : Arms → Scope → Scope
  | .done, s => s
  | .otherwise body, s => body.after s
  | .elif _ body arms, s => arms.after (body.after s)

end

mutual

/-- Whether a statement uses only names that are there, each at its point. -/
def Stmt.Scoped : Stmt → Scope → Prop
  | .simple x, s => x.Scoped s
  | .when condition x, s => condition.Scoped s ∧ x.Scoped s
  | .choose condition body arms, s =>
    condition.Scoped s ∧ body.Scoped s ∧ arms.Scoped (body.after s)
  | .loop condition body, s => condition.Scoped s ∧ body.Scoped s
  | .function name params body, s =>
    s.top? = none ∧ name ≠ topLevel ∧ s.arity name = none ∧ params.Nodup ∧
      body.Scoped (s.inside name params)

/-- Whether statements in a row use only names that are there. -/
def Block.Scoped : Block → Scope → Prop
  | .nil, _ => True
  | .cons first rest, s => first.Scoped s ∧ rest.Scoped (first.after s)

/-- Whether the further arms of a conditional use only names that are there. -/
def Arms.Scoped : Arms → Scope → Prop
  | .done, _ => True
  | .otherwise body, s => body.Scoped s
  | .elif condition body arms, s =>
    condition.Scoped s ∧ body.Scoped s ∧ arms.Scoped (body.after s)

end

/-! ## Functions -/

/-- A function of a program: its parameters, the variables that are its own, and its
statements. -/
structure Definition where
  name : String
  params : List String
  own : String → Bool
  body : Block

mutual

/-- The functions that a statement defines. -/
def Stmt.definitions : Stmt → Scope → List Definition
  | .simple _, _ | .when _ _, _ => []
  | .choose _ body arms, s => body.definitions s ++ arms.definitions (body.after s)
  | .loop _ body, s => body.definitions s
  | .function name params body, s =>
    [⟨name, params, (body.after (s.inside name params)).own, body⟩]

/-- The functions that statements in a row define. -/
def Block.definitions : Block → Scope → List Definition
  | .nil, _ => []
  | .cons first rest, s => first.definitions s ++ rest.definitions (first.after s)

/-- The functions that the further arms of a conditional define. -/
def Arms.definitions : Arms → Scope → List Definition
  | .done, _ => []
  | .otherwise body, s => body.definitions s
  | .elif _ body arms, s => body.definitions s ++ arms.definitions (body.after s)

end

/-! ## What statements leave alone -/

@[simp]
theorem Simple.top?_after (x : Simple) (s : Scope) : (x.after s).top? = s.top? := by
  cases x <;> simp [Simple.after]

@[simp]
theorem Simple.arity_after (x : Simple) (s : Scope) : (x.after s).arity = s.arity := by
  cases x <;> simp [Simple.after]

mutual

theorem Stmt.top?_after : ∀ (x : Stmt) (s : Scope), (x.after s).top? = s.top?
  | .simple x, s | .when _ x, s => by simp [Stmt.after]
  | .choose _ body arms, s => by
      rw [Stmt.after, arms.top?_after, body.top?_after]
  | .loop _ body, s => by rw [Stmt.after, body.top?_after]
  | .function _ _ _, _ => rfl

theorem Block.top?_after : ∀ (b : Block) (s : Scope), (b.after s).top? = s.top?
  | .nil, _ => rfl
  | .cons first rest, s => by rw [Block.after, rest.top?_after, first.top?_after]

theorem Arms.top?_after : ∀ (arms : Arms) (s : Scope), (arms.after s).top? = s.top?
  | .done, _ => rfl
  | .otherwise body, s => by rw [Arms.after, body.top?_after]
  | .elif _ body arms, s => by rw [Arms.after, arms.top?_after, body.top?_after]

end

mutual

/-- Inside a function no function is defined. -/
theorem Stmt.definitions_inside : ∀ (x : Stmt) (s : Scope),
    s.top? ≠ none → x.Scoped s → x.definitions s = []
  | .simple _, _, _, _ | .when _ _, _, _, _ => rfl
  | .choose _ body arms, s, htop, h => by
      have harms := arms.definitions_inside (body.after s) (body.top?_after s ▸ htop) h.2.2
      rw [Stmt.definitions, body.definitions_inside s htop h.2.1, harms, List.nil_append]
  | .loop _ body, s, htop, h => body.definitions_inside s htop h.2
  | .function _ _ _, _, htop, h => absurd h.1 htop

theorem Block.definitions_inside : ∀ (b : Block) (s : Scope),
    s.top? ≠ none → b.Scoped s → b.definitions s = []
  | .nil, _, _, _ => rfl
  | .cons first rest, s, htop, h => by
      have hrest := rest.definitions_inside (first.after s) (first.top?_after s ▸ htop) h.2
      rw [Block.definitions, first.definitions_inside s htop h.1, hrest, List.nil_append]

theorem Arms.definitions_inside : ∀ (arms : Arms) (s : Scope),
    s.top? ≠ none → arms.Scoped s → arms.definitions s = []
  | .done, _, _, _ => rfl
  | .otherwise body, s, htop, h => body.definitions_inside s htop h
  | .elif _ body arms, s, htop, h => by
      have harms := arms.definitions_inside (body.after s) (body.top?_after s ▸ htop) h.2.2
      rw [Arms.definitions, body.definitions_inside s htop h.2.1, harms, List.nil_append]

end

/-! ## Callable names -/

/-- The callable names of a scope take as many arguments as the given table says. -/
def Scope.Within (s : Scope) (arity : String → Option Nat) : Prop :=
  ∀ name count, s.arity name = some count → arity name = some count

theorem Scope.within_refl (s : Scope) : s.Within s.arity := fun _ _ h => h

/-- A function has a new name, so every name keeps the number of its arguments. -/
theorem Scope.within_defined {s : Scope} {name : String} (params : List String)
    (h : s.arity name = none) : s.Within (s.defined name params).arity := by
  intro n count hn
  have hne : n ≠ name := by
    rintro rfl
    rw [h] at hn
    cases hn
  unfold defined
  dsimp only
  rw [if_neg hne]
  exact hn

mutual

theorem Stmt.within_of_after {arity : String → Option Nat} : ∀ (x : Stmt) (s : Scope),
    x.Scoped s → (x.after s).Within arity → s.Within arity
  | .simple x, s, _, h | .when _ x, s, _, h => by
      unfold Scope.Within at h ⊢
      rwa [Stmt.after, x.arity_after] at h
  | .choose _ body arms, s, hscoped, h =>
    body.within_of_after s hscoped.2.1 (arms.within_of_after _ hscoped.2.2 h)
  | .loop _ body, s, hscoped, h => body.within_of_after s hscoped.2 h
  | .function name params _, s, hscoped, h =>
    fun n count hn => h n count (Scope.within_defined params hscoped.2.2.1 n count hn)

theorem Block.within_of_after {arity : String → Option Nat} : ∀ (b : Block) (s : Scope),
    b.Scoped s → (b.after s).Within arity → s.Within arity
  | .nil, _, _, h => h
  | .cons first rest, s, hscoped, h =>
    first.within_of_after s hscoped.1 (rest.within_of_after _ hscoped.2 h)

theorem Arms.within_of_after {arity : String → Option Nat} : ∀ (arms : Arms) (s : Scope),
    arms.Scoped s → (arms.after s).Within arity → s.Within arity
  | .done, _, _, h => h
  | .otherwise body, s, hscoped, h => body.within_of_after s hscoped h
  | .elif _ body arms, s, hscoped, h =>
    body.within_of_after s hscoped.2.1 (arms.within_of_after _ hscoped.2.2 h)

end

mutual

/-- Inside a function no name becomes callable. -/
theorem Stmt.arity_after_inside : ∀ (x : Stmt) (s : Scope),
    s.top? ≠ none → x.Scoped s → (x.after s).arity = s.arity
  | .simple x, s, _, _ | .when _ x, s, _, _ => x.arity_after s
  | .choose _ body arms, s, htop, h => by
      have harms := arms.arity_after_inside (body.after s) (body.top?_after s ▸ htop) h.2.2
      rw [Stmt.after, harms, body.arity_after_inside s htop h.2.1]
  | .loop _ body, s, htop, h => body.arity_after_inside s htop h.2
  | .function _ _ _, _, htop, h => absurd h.1 htop

theorem Block.arity_after_inside : ∀ (b : Block) (s : Scope),
    s.top? ≠ none → b.Scoped s → (b.after s).arity = s.arity
  | .nil, _, _, _ => rfl
  | .cons first rest, s, htop, h => by
      have hrest := rest.arity_after_inside (first.after s) (first.top?_after s ▸ htop) h.2
      rw [Block.after, hrest, first.arity_after_inside s htop h.1]

theorem Arms.arity_after_inside : ∀ (arms : Arms) (s : Scope),
    s.top? ≠ none → arms.Scoped s → (arms.after s).arity = s.arity
  | .done, _, _, _ => rfl
  | .otherwise body, s, htop, h => body.arity_after_inside s htop h
  | .elif _ body arms, s, htop, h => by
      have harms := arms.arity_after_inside (body.after s) (body.top?_after s ▸ htop) h.2.2
      rw [Arms.after, harms, body.arity_after_inside s htop h.2.1]

end

/-- A function has a name of its own and lies in a scope whose callable names are all
known in the end. -/
def Definition.Within (f : Definition) (arity : String → Option Nat) : Prop :=
  f.name ≠ topLevel ∧ ∃ s : Scope, f.body.Scoped s ∧ (f.body.after s).Within arity

mutual

/-- The functions that well-scoped statements define are themselves well scoped. -/
theorem Stmt.definitions_within {arity : String → Option Nat} : ∀ (x : Stmt) (s : Scope),
    x.Scoped s → (x.after s).Within arity → ∀ f ∈ x.definitions s, f.Within arity
  | .simple _, _, _, _ | .when _ _, _, _, _ => nofun
  | .choose _ body arms, s, hscoped, h => by
      intro f hf
      obtain hf | hf := List.mem_append.mp hf
      · exact body.definitions_within s hscoped.2.1
          (arms.within_of_after _ hscoped.2.2 h) f hf
      · exact arms.definitions_within _ hscoped.2.2 h f hf
  | .loop _ body, s, hscoped, h => body.definitions_within s hscoped.2 h
  | .function name params body, s, hscoped, h => by
      intro f hf
      cases List.mem_singleton.mp hf
      refine ⟨hscoped.2.1, s.inside name params, hscoped.2.2.2.2, ?_⟩
      unfold Scope.Within
      rw [body.arity_after_inside (s.inside name params) nofun hscoped.2.2.2.2]
      exact h

theorem Block.definitions_within {arity : String → Option Nat} : ∀ (b : Block) (s : Scope),
    b.Scoped s → (b.after s).Within arity → ∀ f ∈ b.definitions s, f.Within arity
  | .nil, _, _, _ => nofun
  | .cons first rest, s, hscoped, h => by
      intro f hf
      obtain hf | hf := List.mem_append.mp hf
      · exact first.definitions_within s hscoped.1 (rest.within_of_after _ hscoped.2 h) f hf
      · exact rest.definitions_within _ hscoped.2 h f hf

theorem Arms.definitions_within {arity : String → Option Nat} : ∀ (arms : Arms) (s : Scope),
    arms.Scoped s → (arms.after s).Within arity → ∀ f ∈ arms.definitions s, f.Within arity
  | .done, _, _, _ => nofun
  | .otherwise body, s, hscoped, h => body.definitions_within s hscoped h
  | .elif _ body arms, s, hscoped, h => by
      intro f hf
      obtain hf | hf := List.mem_append.mp hf
      · exact body.definitions_within s hscoped.2.1
          (arms.within_of_after _ hscoped.2.2 h) f hf
      · exact arms.definitions_within _ hscoped.2.2 h f hf

end

/-! ## New names -/

theorem Scope.Within.arity_eq_none {s : Scope} {arity : String → Option Nat} (h : s.Within arity)
    {name : String} (hname : arity name = none) : s.arity name = none := by
  cases hs : s.arity name with
  | none => rfl
  | some count =>
      rw [h name count hs] at hname
      cases hname

mutual

/-- No function takes the name of another, or of a host function. -/
theorem Stmt.arity_of_definitions : ∀ (x : Stmt) (s : Scope), x.Scoped s →
    ∀ f ∈ x.definitions s, s.arity f.name = none
  | .simple _, _, _ | .when _ _, _, _ => nofun
  | .choose _ body arms, s, hscoped => by
      intro f hf
      obtain hf | hf := List.mem_append.mp hf
      · exact body.arity_of_definitions s hscoped.2.1 f hf
      · exact (body.within_of_after s hscoped.2.1 (Scope.within_refl _)).arity_eq_none
          (arms.arity_of_definitions _ hscoped.2.2 f hf)
  | .loop _ body, s, hscoped => body.arity_of_definitions s hscoped.2
  | .function name params body, s, hscoped => by
      intro f hf
      cases List.mem_singleton.mp hf
      exact hscoped.2.2.1

theorem Block.arity_of_definitions : ∀ (b : Block) (s : Scope), b.Scoped s →
    ∀ f ∈ b.definitions s, s.arity f.name = none
  | .nil, _, _ => nofun
  | .cons first rest, s, hscoped => by
      intro f hf
      obtain hf | hf := List.mem_append.mp hf
      · exact first.arity_of_definitions s hscoped.1 f hf
      · exact (first.within_of_after s hscoped.1 (Scope.within_refl _)).arity_eq_none
          (rest.arity_of_definitions _ hscoped.2 f hf)

theorem Arms.arity_of_definitions : ∀ (arms : Arms) (s : Scope), arms.Scoped s →
    ∀ f ∈ arms.definitions s, s.arity f.name = none
  | .done, _, _ => nofun
  | .otherwise body, s, hscoped => body.arity_of_definitions s hscoped
  | .elif _ body arms, s, hscoped => by
      intro f hf
      obtain hf | hf := List.mem_append.mp hf
      · exact body.arity_of_definitions s hscoped.2.1 f hf
      · exact (body.within_of_after s hscoped.2.1 (Scope.within_refl _)).arity_eq_none
          (arms.arity_of_definitions _ hscoped.2.2 f hf)

end

end LineScript.Tree
