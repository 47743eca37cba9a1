/-
# Positions

A position that is reported lies within the document: the line of a compile error, the lines of the
instructions, and so the line of a runtime error.

The scanner counts lines upwards, from the first to at most the last. The compiler reads tokens in their
order, so the line that counts at the moment never goes back. It stamps its instructions with that line
or reports errors there or at the next token; the end of the input has the line of the last token. The
top level waits while another function is compiled, and its instructions are older than all that come.
Both compilations in lockstep are the same one here. What a run reports is where an instruction stands,
and an instruction keeps the line that it was written with.

The functions of an earlier program are taken over as they are, with lines of a document of their own.
-/

import LineScript.Editor
import LineScript.Proofs.BackPatching
import LineScript.Proofs.Failures
import LineScript.Proofs.LineByLine
import LineScript.Proofs.LockstepStatements
import LineScript.Proofs.Signatures

namespace LineScript

/-! ## The lines of a text -/

namespace Text

/-- The number of lines: there is one more than there are line breaks. -/
def lineCount (s : String) : Nat := s.toList.count '\n' + 1

theorem length_splitOnChar (separator : Char) (cs : List Char) :
    (splitOnChar separator cs).length = cs.count separator + 1 := by
  induction cs with
  | nil => rfl
  | cons c rest ih =>
      by_cases h : c = separator
      · subst h
        rw [splitOnChar, if_pos rfl, List.length_cons, ih, List.count_cons_self]
      · obtain ⟨piece, pieces, hrest⟩ := List.exists_cons_of_ne_nil (splitOnChar_ne_nil separator rest)
        rw [hrest] at ih
        rw [splitOnChar_cons_of_ne h hrest, List.count_cons_of_ne h, ← ih]
        rfl

theorem length_lines (s : String) : (lines s).length = lineCount s := by
  unfold lines
  rw [List.length_map, length_splitOnChar]
  rfl

end Text

/-! ## The lines of the tokens -/

namespace Token

/-- A token stands on the line that has been reached, and the line breaks that it takes are counted. -/
theorem line_of_beginning {line : Nat} {c : Char} {rest : List Char} {next : Scanned}
    (h : beginning line c rest = .ok next) :
    next.token.line = line ∧ line ≤ next.line ∧
      next.line + next.rest.count '\n' = line + (c :: rest).count '\n' := by
  obtain ⟨more, hrest, -, htoken, hline⟩ := denotes_of_beginning h
  have hcount : (c :: rest).count '\n' = (c :: more).count '\n' + next.rest.count '\n' := by
    rw [hrest, ← List.cons_append, List.count_append]
  exact ⟨htoken, by omega, by omega⟩

/-- Tokens stand on ascending lines, from the one that has been reached to the last one. -/
theorem lines_of_scanFrom {fuel line : Nat} {ended : Bool} {cs : List Char} {tokens : List Token}
    (h : scanFrom fuel line ended cs = .ok tokens) :
    (tokens.map (·.line)).Pairwise (· ≤ ·) ∧
      ∀ t ∈ tokens, (line : Int) ≤ t.line ∧ t.line ≤ (line + cs.count '\n' : Nat) := by
  induction fuel generalizing line ended cs tokens with
  | zero => cases h
  | succ fuel ih =>
      rw [← count_skipSpaces cs]
      rw [scanFrom] at h
      cases hskip : skipSpaces cs with
      | nil =>
          rw [hskip] at h
          cases ended with
          | true =>
              obtain rfl : [] = tokens := Except.ok.inj h
              exact ⟨.nil, List.forall_mem_nil _⟩
          | false =>
              obtain rfl : [_] = tokens := Except.ok.inj h
              exact ⟨List.pairwise_singleton _ _,
                List.forall_mem_singleton.mpr ⟨Int.le_refl _, Int.le_refl _⟩⟩
      | cons c rest =>
          rw [hskip] at h
          dsimp only at h
          cases hnext : beginning line c rest with
          | error cause =>
              rw [hnext] at h
              cases h
          | ok next =>
              rw [hnext] at h
              obtain ⟨following, hfollowing, rfl⟩ := map_cons_eq_ok h
              obtain ⟨htoken, hle, hcount⟩ := line_of_beginning hnext
              obtain ⟨hascending, hinside⟩ := ih hfollowing
              rw [hcount] at hinside
              have hfirst : (line : Int) ≤ next.line := Int.ofNat_le.mpr hle
              rw [List.map_cons]
              refine ⟨.cons (List.forall_mem_map.mpr fun t ht => ?_) hascending,
                List.forall_mem_cons.mpr ⟨?_, fun t ht => ?_⟩⟩
              · rw [htoken]
                exact Int.le_trans hfirst (hinside t ht).1
              · rw [htoken]
                exact ⟨Int.le_refl _, Int.ofNat_le.mpr (Nat.le_add_right _ _)⟩
              · exact ⟨Int.le_trans hfirst (hinside t ht).1, (hinside t ht).2⟩

/-- Where no token can be read is a line that has been reached. -/
theorem line_of_scanFrom_error {fuel line : Nat} {ended : Bool} {cs : List Char} {e : CompileError}
    (h : scanFrom fuel line ended cs = .error e) :
    (line : Int) ≤ e.line ∧ e.line ≤ (line + cs.count '\n' : Nat) := by
  induction fuel generalizing line ended cs with
  | zero =>
      cases h
      exact ⟨Int.le_refl _, Int.ofNat_le.mpr (Nat.le_add_right _ _)⟩
  | succ fuel ih =>
      rw [← count_skipSpaces cs]
      rw [scanFrom] at h
      cases hskip : skipSpaces cs with
      | nil =>
          rw [hskip] at h
          cases h
      | cons c rest =>
          rw [hskip] at h
          dsimp only at h
          cases hnext : beginning line c rest with
          | error cause =>
              rw [hnext] at h
              cases h
              exact ⟨Int.le_refl _, Int.ofNat_le.mpr (Nat.le_add_right _ _)⟩
          | ok next =>
              rw [hnext] at h
              obtain ⟨-, hle, hcount⟩ := line_of_beginning hnext
              dsimp only at h
              cases hfollowing : scanFrom fuel next.line (next.token.kind = .lineBreak) next.rest with
              | ok tokens =>
                  rw [hfollowing] at h
                  cases h
              | error e' =>
                  rw [hfollowing] at h
                  cases h
                  obtain ⟨hfirst, hlast⟩ := ih hfollowing
                  rw [hcount] at hlast
                  exact ⟨Int.le_trans (Int.ofNat_le.mpr hle) hfirst, hlast⟩

/-- What is read of a text has no more lines than the text. -/
theorem lines_readable_le (source : String) :
    1 + (source.toList.takeWhile (· ≠ '\x00')).count '\n' ≤ Text.lineCount source := by
  have hcount := (List.takeWhile_prefix (l := source.toList) (· ≠ '\x00')).sublist.count_le '\n'
  unfold Text.lineCount
  omega

theorem lines_of_scan {source : String} {tokens : List Token} (h : scan source = .ok tokens) :
    (tokens.map (·.line)).Pairwise (· ≤ ·) ∧
      ∀ t ∈ tokens, 1 ≤ t.line ∧ t.line ≤ Text.lineCount source := by
  obtain ⟨hascending, hinside⟩ := lines_of_scanFrom h
  have hcount := Int.ofNat_le.mpr (lines_readable_le source)
  exact ⟨hascending, fun t ht => ⟨(hinside t ht).1, Int.le_trans (hinside t ht).2 hcount⟩⟩

theorem line_of_scan_error {source : String} {e : CompileError} (h : scan source = .error e) :
    1 ≤ e.line ∧ e.line ≤ Text.lineCount source := by
  obtain ⟨hfirst, hlast⟩ := line_of_scanFrom_error h
  exact ⟨hfirst, Int.le_trans hlast (Int.ofNat_le.mpr (lines_readable_le source))⟩

end Token

/-! ## The lines of the instructions -/

namespace Code.Function

/-- The lines of the instructions, in the order of their addresses. -/
def lines (f : Function) : List Int := f.code.toList.map (·.line)

/-- The lines of the instructions ascend, and they are among the first `last` lines. -/
structure LinesUpTo (f : Function) (last : Int) : Prop where
  ascending : f.lines.Pairwise (· ≤ ·)
  inside : ∀ line ∈ f.lines, 1 ≤ line ∧ line ≤ last

variable {f g : Function} {last : Int}

theorem lines_emit (f : Function) (i : Instruction) : (f.emit i).lines = f.lines ++ [i.line] := by
  change (f.code.push i).toList.map (·.line) = _
  rw [Array.toList_push, List.map_append]
  rfl

theorem lines_declare (f : Function) (name : String) : (f.declare name).lines = f.lines := by
  unfold lines
  rw [code_declare]

theorem lines_foldl_declare (f : Function) (names : List String) :
    (names.foldl declare f).lines = f.lines := by
  obtain ⟨scope, h⟩ := foldl_declare_eq names f
  rw [h]
  rfl

theorem lines_new (name : String) (params : List String) : (new name params).lines = [] :=
  lines_foldl_declare _ params

/-- An instruction keeps its line when its target is set. -/
theorem lines_of_patchHere {address : Int} (h : f.patchHere address = .ok g) : g.lines = f.lines := by
  obtain ⟨-, -, -, rfl⟩ := patch_eq_ok_iff.mp h
  unfold lines
  apply List.ext_getElem?
  intro n
  rw [List.getElem?_map, List.getElem?_map, Array.getElem?_toList, Array.getElem?_toList,
    getElem?_withTarget, Option.map_map]
  congr 1
  funext i
  dsimp only [Function.comp]
  split <;> rfl

namespace LinesUpTo

theorem of_lines_eq_nil (h : f.lines = []) (last : Int) : f.LinesUpTo last := by
  constructor <;> rw [h]
  · exact .nil
  · exact List.forall_mem_nil _

theorem of_lines_eq (h : f.LinesUpTo last) (hlines : g.lines = f.lines) : g.LinesUpTo last := by
  constructor <;> rw [hlines]
  · exact h.ascending
  · exact h.inside

theorem mono (h : f.LinesUpTo last) {last' : Int} (hle : last ≤ last') : f.LinesUpTo last' :=
  ⟨h.ascending, fun line hline => ⟨(h.inside line hline).1, Int.le_trans (h.inside line hline).2 hle⟩⟩

/-- The last line that was allowed is a line for the next instruction. -/
theorem emit (h : f.LinesUpTo last) {i : Instruction} (hi : i.line = last) (hfirst : 1 ≤ last) :
    (f.emit i).LinesUpTo last := by
  constructor <;> rw [lines_emit, hi]
  · refine List.pairwise_append.mpr ⟨h.ascending, List.pairwise_singleton _ _, fun line hline => ?_⟩
    exact List.forall_mem_singleton.mpr (h.inside line hline).2
  · exact List.forall_mem_append.mpr
      ⟨h.inside, List.forall_mem_singleton.mpr ⟨hfirst, Int.le_refl _⟩⟩

end LinesUpTo

end Code.Function

/-! ## The lines of a compilation -/

/-- A function of the earlier program, under its name. -/
def Compiler.Earlier (c : Compiler) (name : String) (f : Code.Function) : Prop :=
  name ≠ Code.topLevel ∧
    ∃ earlier, c.prelude? = some earlier ∧ earlier.functions.get? name = some f

theorem Compiler.not_earlier {c : Compiler} (h : c.prelude? = none) (name : String)
    (f : Code.Function) : ¬ c.Earlier name f := by
  rintro ⟨-, earlier, hearlier, -⟩
  rw [h] at hearlier
  cases hearlier

namespace Compile

open LineScript.Code

/-- The lines that are still to come: the one that counts now, those of the tokens, and that of the end
of the input. -/
def Draft.lines (d : Draft) : List Int := d.line :: (d.rest.map (·.line) ++ [d.lastLine])

/-- The line that counts now is not behind those to come, and what has been compiled is not behind it. -/
structure Positioned (c : Compiler) (last : Int) (d : Draft) : Prop where
  natives : d.natives = c.natives
  first : 1 ≤ d.line
  ordered : d.lines.Pairwise (· ≤ ·)
  ending : d.lastLine ≤ last
  body : d.body.LinesUpTo d.line
  outer : ∀ top, d.outer? = some top → top.LinesUpTo d.line
  functions : ∀ name f, d.functions.get? name = some f → c.Earlier name f ∨ f.LinesUpTo last

/-- The next token comes first, whether it is one of the input or the end. -/
theorem Draft.exists_peek_line (d : Draft) :
    ∃ later, d.rest.map (·.line) ++ [d.lastLine] = d.peek.line :: later := by
  unfold peek
  cases d.rest with
  | nil => exact ⟨[], rfl⟩
  | cons t rest => exact ⟨_, rfl⟩

theorem Draft.peek_line_mem (d : Draft) : d.peek.line ∈ d.rest.map (·.line) ++ [d.lastLine] := by
  obtain ⟨later, hlater⟩ := d.exists_peek_line
  rw [hlater]
  exact List.mem_cons_self

/-- The line of the next token can be the one that counts. -/
theorem Draft.pairwise_peek_line {d : Draft}
    (h : (d.rest.map (·.line) ++ [d.lastLine]).Pairwise (· ≤ ·)) :
    (d.peek.line :: (d.rest.map (·.line) ++ [d.lastLine])).Pairwise (· ≤ ·) := by
  obtain ⟨later, hlater⟩ := d.exists_peek_line
  rw [hlater] at h ⊢
  exact .cons (List.forall_mem_cons.mpr ⟨Int.le_refl _, fun _ => List.rel_of_pairwise_cons h⟩) h

namespace Positioned

variable {c : Compiler} {last : Int} {d : Draft}

theorem line_le (h : Positioned c last d) : d.line ≤ last := by
  have hline := List.rel_of_pairwise_cons h.ordered (List.mem_append_right _ List.mem_cons_self)
  exact Int.le_trans hline h.ending

theorem peek_line (h : Positioned c last d) : d.line ≤ d.peek.line ∧ d.peek.line ≤ last := by
  have hpeek := Draft.pairwise_peek_line h.ordered.of_cons
  have hending := List.rel_of_pairwise_cons hpeek (List.mem_append_right _ List.mem_cons_self)
  exact ⟨List.rel_of_pairwise_cons h.ordered d.peek_line_mem, Int.le_trans hending h.ending⟩

theorem withBody (h : Positioned c last d) {body : Function} (hbody : body.LinesUpTo d.line) :
    Positioned c last { d with body := body } :=
  ⟨h.natives, h.first, h.ordered, h.ending, hbody, h.outer, h.functions⟩

/-- The line that counts goes on, and leaves behind what has been compiled. -/
theorem onward (h : Positioned c last d) {rest : List Token} {line : Int} (hle : d.line ≤ line)
    (hordered : (line :: (rest.map (·.line) ++ [d.lastLine])).Pairwise (· ≤ ·)) :
    Positioned c last { d with rest := rest, consumed? := some line } :=
  ⟨h.natives, Int.le_trans h.first hle, hordered, h.ending, h.body.mono hle,
    fun top htop => (h.outer top htop).mono hle, h.functions⟩

theorem next (h : Positioned c last d) : Positioned c last d.next := by
  unfold Draft.next
  split
  · exact h
  · rename_i t rest hrest
    have hordered := h.ordered
    unfold Draft.lines at hordered
    rw [hrest, List.map_cons, List.cons_append] at hordered
    exact h.onward (List.rel_of_pairwise_cons hordered List.mem_cons_self) hordered.of_cons

theorem seen (h : Positioned c last d) : Positioned c last { d with consumed? := some d.peek.line } :=
  h.onward h.peek_line.1 (Draft.pairwise_peek_line h.ordered.of_cons)

theorem functions_insert (h : Positioned c last d) {name : String} {f : Function}
    (hf : f.LinesUpTo last) : ∀ name' f', (d.functions.insert name f).get? name' = some f' →
      c.Earlier name' f' ∨ f'.LinesUpTo last :=
  Dict.forall_get?_insert (.inr hf) h.functions

/-- A new function has no code yet, and the top level waits for it. -/
theorem enter (h : Positioned c last d) (name : String) (params : List String) :
    Positioned c last (d.enter name params) := by
  have hnew : ∀ line, (Function.new name params).LinesUpTo line :=
    Function.LinesUpTo.of_lines_eq_nil (Function.lines_new name params)
  unfold Draft.enter
  dsimp only
  split
  · exact h.withBody (hnew _)
  · refine ⟨h.natives, h.first, h.ordered, h.ending, hnew _, ?_, h.functions_insert (hnew _)⟩
    rintro top ⟨⟩
    exact h.body

theorem leave (h : Positioned c last d) : Positioned c last d.leave := by
  unfold Draft.leave
  cases houter : d.outer? with
  | none => exact h
  | some top =>
      refine ⟨h.natives, h.first, h.ordered, h.ending, h.outer top houter, ?_,
        h.functions_insert (h.body.mono h.line_le)⟩
      rintro top ⟨⟩

end Positioned

/-- A compilation beside itself, within the lines of its document. -/
def positions (c : Compiler) (last : Int) : Lockstep where
  natives := c.natives
  Inv := Positioned c last
  Good e := 1 ≤ e.line ∧ e.line ≤ last
  Parts _ := False
  next h := h.next
  emit h hline := h.withBody (h.body.emit hline h.first)
  patch h hpatch := h.withBody (h.body.of_lines_eq (Function.lines_of_patchHere hpatch))
  declare name h := h.withBody (h.body.of_lines_eq (Function.lines_declare _ name))
  enter name params h := h.enter name params
  leave h := h.leave
  seen h := h.seen
  atNext h _ := ⟨Int.le_trans h.first h.peek_line.1, h.peek_line.2⟩
  atLast h _ := ⟨h.first, h.line_le⟩
  called {d} h name := by
    unfold Draft.hostedBy
    rw [← h.natives]
    exact .inl rfl
  defined {d} h _ _ := by
    unfold Draft.hostedBy
    rw [← h.next.next.natives]

end Compile

namespace Compiler

open LineScript.Code LineScript.Compile

variable {c : Compiler} {source : String}

/-- A compilation begins with the functions of the earlier program. -/
theorem earlier_of_draft {tokens : List Token} {name : String} {f : Function}
    (h : (c.draft tokens).functions.get? name = some f) : c.Earlier name f := by
  unfold draft at h
  dsimp only at h
  by_cases hname : name = topLevel
  · subst hname
    rw [Dict.get?_erase_self] at h
    cases h
  · rw [Dict.get?_erase_of_ne _ hname] at h
    cases hprelude : c.prelude? with
    | none =>
        rw [hprelude] at h
        cases h
    | some earlier =>
        rw [hprelude] at h
        exact ⟨hname, earlier, hprelude, h⟩

/-- A compilation begins at the first token, with nothing compiled. -/
theorem positioned_draft {tokens : List Token} (h : Token.scan source = .ok tokens) :
    Positioned c (Text.lineCount source) (c.draft tokens) := by
  obtain ⟨-, hne, -⟩ := Token.proper_of_scan h
  obtain ⟨hascending, hinside⟩ := Token.lines_of_scan h
  have hlast : (c.draft tokens).lastLine = (tokens.map (·.line)).getLast (by simpa using hne) := by
    unfold draft
    rw [List.getLast?_eq_some_getLast hne, List.getLast_map]
    rfl
  have hending : (c.draft tokens).lastLine ∈ tokens.map (·.line) := hlast ▸ List.getLast_mem _
  have hordered : (tokens.map (·.line) ++ [(c.draft tokens).lastLine]).Pairwise (· ≤ ·) := by
    refine List.pairwise_append.mpr ⟨hascending, List.pairwise_singleton _ _, fun line hline => ?_⟩
    rw [List.forall_mem_singleton, hlast]
    exact hascending.rel_getLast hline
  have hlines : ∀ line ∈ tokens.map (·.line), (1 : Int) ≤ line ∧ line ≤ Text.lineCount source :=
    List.forall_mem_map.mpr hinside
  have hempty : (c.draft tokens).body.lines = [] :=
    (Function.lines_foldl_declare _ _).trans (Function.lines_new topLevel [])
  have hpeek : (c.draft tokens).peek.line ∈ tokens.map (·.line) := by
    rcases List.mem_append.mp (c.draft tokens).peek_line_mem with hmem | hmem
    · exact hmem
    · rw [List.mem_singleton.mp hmem]
      exact hending
  exact ⟨rfl, (hlines _ hpeek).1, Draft.pairwise_peek_line hordered, (hlines _ hending).2,
    .of_lines_eq_nil hempty _, nofun, fun name f hf => .inl (earlier_of_draft hf)⟩

/-- A compile error stands on a line of the document. -/
theorem line_of_error {e : CompileError} (h : c.compileSource source = .error e) :
    1 ≤ e.line ∧ e.line ≤ Text.lineCount source := by
  unfold compileSource at h
  cases hscan : Token.scan source with
  | error e' =>
      rw [hscan] at h
      cases h
      exact Token.line_of_scan_error hscan
  | ok tokens =>
      rw [hscan] at h
      have hcompile : c.compile tokens = .error e := h
      have hinv : (positions c (Text.lineCount source)).Inv (c.draft tokens) := positioned_draft hscan
      have hagree := agree_compile hinv
      rw [hcompile] at hagree
      obtain hparts | ⟨hgood, -⟩ := hagree
      · exact hparts.elim
      · exact hgood

/-- The instructions of a function stand on ascending lines of the document, unless the function was
there before. -/
theorem lines_of_function {p : Program} (h : c.compileSource source = .ok p) {name : String}
    {f : Function} (hf : p.functions.get? name = some f) :
    c.Earlier name f ∨ f.LinesUpTo (Text.lineCount source) := by
  unfold compileSource at h
  cases hscan : Token.scan source with
  | error e =>
      rw [hscan] at h
      cases h
  | ok tokens =>
      rw [hscan] at h
      have hcompile : c.compile tokens = .ok p := h
      have hinv : (positions c (Text.lineCount source)).Inv (c.draft tokens) := positioned_draft hscan
      have hagree := agree_compile hinv
      rw [hcompile] at hagree
      obtain ⟨-, -, -, d, hd, rfl⟩ := hagree
      exact hd.functions_insert (hd.body.mono hd.line_le) name f hf

end Compiler

/-! ## The lines of runtime errors -/

namespace Machine

open LineScript.Code

/-- When the transition is a failure, the error is one of the instruction that began in a state. -/
def Transition.Blames (s₀ : State) : Transition → Prop
  | .failed e _ => ∃ cause, e = s₀.error cause
  | .next _ | .finished _ _ | .breakdown _ _ => True

namespace Transition.Blames

variable {s₀ s : State} (h : s.frame = s₀.frame)
include h

theorem fail (cause : Cause) : (s.fail cause).Blames s₀ := by
  refine ⟨cause, ?_⟩
  unfold State.error
  rw [h]

theorem withTop {next : Value → State → Transition} (hnext : ∀ v, (next v s).Blames s₀) :
    (s.withTop next).Blames s₀ := by
  unfold State.withTop
  split
  · exact hnext s.top
  · exact fail h .underflow

theorem popping {next : Value → State → Transition}
    (hnext : ∀ v t, t.frame = s₀.frame → (next v t).Blames s₀) : (s.popping next).Blames s₀ := by
  unfold State.popping
  split
  · exact hnext s.top s.drop h
  · exact fail h .underflow

theorem popping2 {next : Value → Value → State → Transition}
    (hnext : ∀ a b t, t.frame = s₀.frame → (next a b t).Blames s₀) :
    (s.popping2 next).Blames s₀ :=
  popping h fun b _ h => popping h fun a t h => hnext a b t h

theorem pushing (r : Except Cause Value) : (s.pushing r).Blames s₀ := by
  cases r with
  | ok v => trivial
  | error cause => exact fail h cause

omit h in
theorem leave (s : State) (v : Value) : (s.leave v).Blames s₀ := by
  obtain ⟨stack, frame, callers, globals, world, natives, steps, trace?⟩ := s
  cases callers <;> trivial

theorem call (p : Program) (limits : Limits) (name : String) :
    (s.call p limits name).Blames s₀ := by
  unfold State.call
  split
  · unfold State.enter
    dsimp only
    split
    · exact fail h _
    · split
      · exact fail h .depthLimit
      · trivial
  · split
    · rename_i bound _
      unfold State.ask
      split
      · exact fail h _
      · split
        · trivial
        · obtain ⟨stack, frame, callers, globals, world, natives, steps, trace?⟩ := s
          unfold State.answer
          dsimp only
          split
          · trivial
          · exact fail h _
          · trivial
    · exact fail h _

theorem execute (p : Program) (limits : Limits) (i : Instruction) :
    (s.execute p limits i).Blames s₀ := by
  obtain ⟨op, literal, name, target, line⟩ := i
  unfold State.execute
  cases op <;> dsimp only
  case value | load | list | object | jump => trivial
  case pop | store | branch | not => exact popping h fun _ _ _ => trivial
  case append | set =>
    refine popping h fun v t h => withTop h fun c => ?_
    split
    · trivial
    · exact fail h _
  case get | negate =>
    refine popping h fun c t h => ?_
    split
    · trivial
    · exact fail h _
  case put =>
    refine popping h fun v _ h => popping2 h fun c index t h => ?_
    split
    · trivial
    · exact fail h _
  case call => exact call h p limits name
  case ret => exact popping h fun v t _ => leave t v
  case skipAnd | skipOr => exact withTop h fun _ => trivial
  case and | or | equal | notEqual => exact popping2 h fun _ _ _ _ => trivial
  case index | add | subtract | multiply | divide | less | lessOrEqual | greater | greaterOrEqual =>
    exact popping2 h fun _ _ _ h => pushing h _
  case unassigned => exact fail h _

end Transition.Blames

section

variable {p : Program} {limits : Limits} {s s' : State} {cancelled : Bool} {e : RuntimeError}

/-- A step that fails names the instruction at which the running call stands. -/
theorem error_of_step (h : s.step p limits cancelled = .failed e s') :
    ∃ i, s.instruction? = some i ∧ e = ⟨s.frame.function.name, s.frame.ip, i.line, e.cause⟩ := by
  unfold State.step at h
  split at h
  · cases h
  rename_i hip
  dsimp only at h
  split at h
  · obtain ⟨stack, frame, callers, globals, world, natives, steps, trace?⟩ := s
    cases callers <;> cases h
  rename_i i hcode
  have hi : s.instruction? = some i := (if_neg hip).trans hcode
  have hblames : ∃ cause, e = s.begin.error cause := by
    split at h
    · cases h
      exact ⟨_, rfl⟩
    split at h
    · cases h
      exact ⟨_, rfl⟩
    obtain ⟨trace?, hrecorded⟩ := recorded_eq s.begin s.frame.ip.toNat i
    have hblames : ((s.begin.recorded s.frame.ip.toNat i).execute p limits i).Blames s.begin := by
      rw [hrecorded]
      exact Transition.Blames.execute rfl p limits i
    rw [h] at hblames
    exact hblames
  obtain ⟨cause, rfl⟩ := hblames
  exact ⟨i, hi, error_begin hi cause⟩

/-- Every call of a run is one of a function of the program. -/
theorem functions_of_reachable {m : Machine} {main : Function} (hmain : p.main? = some main)
    (h : Reachable p limits (m.start main) s) :
    ∀ f ∈ (s.frame :: s.callers).map Frame.function, ∃ name, p.functions.get? name = some f := by
  induction h with
  | first => exact List.forall_mem_singleton.mpr ⟨topLevel, hmain⟩
  | next cancelled _ hstep ih =>
      obtain hremains | ⟨f, args, henters⟩ | ⟨v, hreturns⟩ := step_cases hstep
      · rw [hremains.callers, List.map_cons, hremains.function]
        exact ih
      · obtain ⟨name, -, hname⟩ := henters.function
        rw [henters.callers, henters.frame]
        exact List.forall_mem_cons.mpr ⟨⟨name, hname⟩, ih⟩
      · rw [hreturns.callers] at ih
        exact (List.forall_mem_cons.mp ih).2

end

/-- The error of a run names an instruction of the program, and has its line. -/
theorem exists_instruction_of_failed {m : Machine} {patience : Nat} {p : Program} {cancelled : Bool}
    {e : RuntimeError} (h : (m.runFor patience p cancelled).outcome = .failed e) :
    ∃ name f i, p.functions.get? name = some f ∧ e.function = f.name ∧ 0 ≤ e.address ∧
      f.code[e.address.toNat]? = some i ∧ e.line = i.line := by
  unfold runFor at h
  cases hmain : p.main? with
  | none =>
      rw [hmain] at h
      cases h
  | some main =>
      rw [hmain] at h
      obtain ⟨s', hproceed⟩ : ∃ s',
          proceed p m.limits cancelled patience (m.start main) = (.failed e, s') :=
        ⟨_, Prod.ext h rfl⟩
      obtain ⟨s, hreachable, hstep⟩ := exists_reachable_of_failed .first hproceed
      obtain ⟨i, hi, heq⟩ := error_of_step hstep
      obtain ⟨name, hname⟩ := functions_of_reachable hmain hreachable _ List.mem_cons_self
      obtain ⟨hip, hcode⟩ := getElem?_of_instruction? hi
      rw [heq]
      exact ⟨name, s.frame.function, i, hname, rfl, hip, hcode, rfl⟩

end Machine

/-! ## The lines of diagnostics -/

/-- A diagnostic lies on the line of the error, which is there, and covers it. -/
theorem Editor.exists_line_of_problem {editor : Editor} {text : String} {problem : Editor.Problem}
    (h : editor.problem? text = some problem) :
    ∃ e line, editor.compiler.compileSource text = .error e ∧ (problem.line : Int) + 1 = e.line ∧
      (Text.lines text)[problem.line]? = some line ∧ problem.width = line.utf8ByteSize := by
  unfold problem? at h
  split at h
  · cases h
  · rename_i e he
    cases h
    obtain ⟨hfirst, hlast⟩ := Compiler.line_of_error he
    have hline : (((e.line - 1).toNat : Nat) : Int) + 1 = e.line := by omega
    have hlt : (e.line - 1).toNat < (Text.lines text).length := by
      rw [Text.length_lines]
      omega
    have hget := List.getElem?_eq_getElem hlt
    refine ⟨e, _, he, hline, hget, ?_⟩
    unfold problemOf
    dsimp only
    rw [hget]
    rfl

namespace Compiler

open LineScript.Code

/-- Positions lie inside the document. A compile error has a line of it, on which the diagnostic lies and
which it covers. The instructions of what compiles have ascending lines of it, and so the errors of all
runs have such lines, but for the functions of an earlier program, which are as they were. -/
theorem positions_inside (c : Compiler) (source : String) :
    (∀ e, c.compileSource source = .error e → 1 ≤ e.line ∧ e.line ≤ Text.lineCount source) ∧
    (∀ (editor : Editor) (problem : Editor.Problem), editor.problem? source = some problem →
      ∃ e line, editor.compiler.compileSource source = .error e ∧ (problem.line : Int) + 1 = e.line ∧
        (Text.lines source)[problem.line]? = some line ∧ problem.width = line.utf8ByteSize) ∧
    ∀ p, c.compileSource source = .ok p →
      (∀ name f, p.functions.get? name = some f →
        c.Earlier name f ∨ f.LinesUpTo (Text.lineCount source)) ∧
      ∀ (m : Machine) (patience : Nat) (cancelled : Bool) (e : Machine.RuntimeError),
        (m.runFor patience p cancelled).outcome = .failed e →
          ∃ name f i, p.functions.get? name = some f ∧ e.function = f.name ∧ 0 ≤ e.address ∧
            f.code[e.address.toNat]? = some i ∧ e.line = i.line ∧
            (c.Earlier name f ∨ 1 ≤ e.line ∧ e.line ≤ Text.lineCount source) := by
  refine ⟨fun e => line_of_error, fun editor problem => Editor.exists_line_of_problem, fun p hp => ?_⟩
  refine ⟨fun name f => lines_of_function hp, fun m patience cancelled e hfailed => ?_⟩
  obtain ⟨name, f, i, hf, hfunction, haddress, hi, hline⟩ := Machine.exists_instruction_of_failed hfailed
  refine ⟨name, f, i, hf, hfunction, haddress, hi, hline, ?_⟩
  obtain hearlier | hlines := lines_of_function hp hf
  · exact .inl hearlier
  · have hmem : i.line ∈ f.lines :=
      List.mem_map_of_mem (Array.mem_toList_iff.mpr (Array.mem_of_getElem? hi))
    rw [hline]
    exact .inr (hlines.inside _ hmem)

/-- A member of null is asked for on the second line. -/
def memberOfNull : Program :=
  ⟨Dict.insert ∅ topLevel
    { name := topLevel
      scope := (Dict.insert ∅ "a" (some "a")).insert "b" (some "b")
      code? := some #[{ op := .value, line := 1 }, { op := .store, name := "a", line := 1 },
        { op := .load, name := "a", line := 2 }, { op := .get, name := "c", line := 2 },
        { op := .store, name := "b", line := 2 }] }⟩

theorem compileSource_memberOfNull : compileSource {} "a = null\nb = a.c" = .ok memberOfNull := by cbv

/-- A script that is wrong on its last line, and one that fails there. -/
theorem positions_inside_member :
    (∃ e, compileSource {} "a = null\nb = c" = .error e ∧ 1 ≤ e.line ∧ e.line ≤ 2) ∧
    (∃ problem, Editor.problem? { natives := ∅ } "a = null\nb = c" = some problem ∧
      ∃ line, (Text.lines "a = null\nb = c")[problem.line]? = some line ∧
        problem.width = line.utf8ByteSize) ∧
    compileSource {} "a = null\nb = a.c" = .ok memberOfNull ∧
    (∀ name f, memberOfNull.functions.get? name = some f → f.LinesUpTo 2) ∧
    ∃ e, (Machine.runFor {} 4 memberOfNull).outcome = .failed e ∧ 1 ≤ e.line ∧ e.line ≤ 2 := by
  have hwrong : compileSource {} "a = null\nb = c" =
      .error { cause := .undefinedVariable "c", line := 2, token := "identifier(c)" } := by cbv
  have hfailed : (Machine.runFor {} 4 memberOfNull).outcome =
      .failed ⟨topLevel, 3, 2, .wrongKind "get member c of" .null⟩ := rfl
  have hproblem : Editor.problem? { natives := ∅ } "a = null\nb = c" = some
      (Editor.problemOf "a = null\nb = c"
        { cause := .undefinedVariable "c", line := 2, token := "identifier(c)" }) := by
    unfold Editor.problem?
    have hcompiler : Editor.compiler { natives := ∅ } = {} := rfl
    rw [hcompiler, hwrong]
  obtain ⟨hplaced, hmarked, -⟩ := positions_inside {} "a = null\nb = c"
  obtain ⟨-, -, hruns⟩ := positions_inside {} "a = null\nb = a.c"
  obtain ⟨hlines, herrors⟩ := hruns _ compileSource_memberOfNull
  obtain ⟨-, line, -, -, hline, hwidth⟩ := hmarked _ _ hproblem
  refine ⟨⟨_, hwrong, hplaced _ hwrong⟩, ⟨_, hproblem, line, hline, hwidth⟩,
    compileSource_memberOfNull, fun name f hf => ?_, _, hfailed, ?_⟩
  · exact (hlines name f hf).resolve_left (not_earlier rfl name f)
  · obtain ⟨name, f, i, -, -, -, -, -, hinside⟩ := herrors {} 4 false _ hfailed
    exact hinside.resolve_left (not_earlier rfl name f)

end Compiler

end LineScript
