/-
# Storing programs and reading them back

Three facts about stored programs. A program comes back from its bytes as it was, but for
negative zeros. The bytes do not depend on the order in which the functions of the program and
their variables were added. And a compiled program comes back unchanged: its functions are
stored under their own names, its texts and lines are those of the source, its jumps stay
within the code, and no number of a source is the negative zero.

What holds of compiled programs is an invariant of compilations: one step keeps it, so
every compilation does, and the draft a compilation begins with has it.
-/

import LineScript.Proofs.CompilationSteps
import LineScript.Proofs.Scanning
import LineScript.Proofs.StatementTrees
import LineScript.Proofs.StoredPrograms
import LineScript.Proofs.TokenSizes

namespace LineScript.Code

open LineScript.Number

/-! ## Functions as they are written -/

/-- An instruction of a function with the given number of instructions, as a compilation
leaves it: its target is open or lies within the code, and its number is not the negative
zero. -/
structure Instruction.Written (length : Nat) (i : Instruction) : Prop where
  string : TextFits i.literal.string
  name : TextFits i.name
  target : unresolvedTarget ≤ i.target ∧ i.target ≤ length
  line : fits64 i.line = true
  number : i.literal.number ≠ -0

/-- A function as a compilation leaves it. -/
structure Function.Written (f : Function) : Prop where
  name : TextFits f.name
  params : ∀ name ∈ f.params, TextFits name
  scope : ∀ e ∈ f.scope.entries, TextFits e.1 ∧ ∀ marker ∈ e.2, TextFits marker
  code : ∀ i ∈ f.code.toList, i.Written f.length

theorem Instruction.Written.mono {length length' : Nat} {i : Instruction} (h : i.Written length)
    (hle : length ≤ length') : i.Written length' :=
  { h with target := ⟨h.target.1, Int.le_trans h.target.2 (Int.ofNat_le.mpr hle)⟩ }

/-- An instruction without a negative zero comes back as it was. -/
theorem Instruction.stored_of_ne {i : Instruction} (h : i.literal.number ≠ -0) : i.stored = i := by
  rw [Instruction.stored, Literal.stored, if_neg h]

namespace Function.Written

variable {f g : Function}

theorem emit (h : f.Written) {i : Instruction} (hi : i.Written f.length) : (f.emit i).Written := by
  have hlength : (f.emit i).length = f.length + 1 := Array.size_push _
  refine { h with code := fun j hj => ?_ }
  rw [hlength]
  have hj : j ∈ (f.code.push i).toList := hj
  rw [Array.toList_push, List.mem_append, List.mem_singleton] at hj
  obtain hj | rfl := hj
  · exact (h.code j hj).mono (Nat.le_succ _)
  · exact hi.mono (Nat.le_succ _)

theorem declare (h : f.Written) {name : String} (hname : TextFits name) :
    (f.declare name).Written := by
  unfold Function.declare
  split
  · exact h
  · refine { h with scope := fun e he => ?_ }
    obtain rfl | he := Dict.mem_place he
    · exact ⟨hname, fun marker hmarker => by cases hmarker; exact hname⟩
    · exact h.scope e he

theorem declareAll (h : f.Written) {names : List String} (hnames : ∀ name ∈ names, TextFits name) :
    (names.foldl Function.declare f).Written := by
  induction names generalizing f with
  | nil => exact h
  | cons name names ih =>
      exact ih (h.declare (hnames name List.mem_cons_self))
        fun other hother => hnames other (List.mem_cons_of_mem _ hother)

/-- A resolved placeholder jumps to the end of the code. -/
theorem patchHere (h : f.Written) {address : Nat} (hpatch : f.patchHere address = .ok g) :
    g.Written := by
  have hlength := Function.length_of_patchHere hpatch
  have hg := Function.eq_of_patchHere hpatch
  have hcode : g.code = f.code.modify address (fun i => { i with target := f.length }) := by
    rw [hg]
    rfl
  refine ⟨by rw [hg]; exact h.name, by rw [hg]; exact h.params, by rw [hg]; exact h.scope, ?_⟩
  intro j hj
  rw [hcode] at hj
  rw [hlength]
  obtain ⟨k, hk, rfl⟩ := Array.mem_iff_getElem.mp (Array.mem_toList_iff.mp hj)
  rw [Array.size_modify] at hk
  rw [Array.getElem_modify]
  have hwritten := h.code f.code[k] (Array.mem_toList_iff.mpr (Array.getElem_mem hk))
  split
  · exact { hwritten with target := ⟨Int.le_trans (by decide) (Int.natCast_nonneg _), Int.le_refl _⟩ }
  · exact hwritten

theorem stored_eq (h : f.Written) : f.stored = f := by
  obtain ⟨name, params?, scope, code?⟩ := f
  cases code? with
  | none => rfl
  | some code =>
      have hcode : code.map Instruction.stored = code.map id :=
        Array.map_inj_left.mpr fun i hi =>
          Instruction.stored_of_ne (h.code i (Array.mem_toList_iff.mpr hi)).number
      rw [Array.map_id] at hcode
      rw [Function.stored, Option.map_some, hcode]

/-- Within the greatest size of code, every jump within the code is of machine size. -/
theorem sized (h : f.Written) (hlimited : f.Limited) : f.Sized := by
  refine { h with code := fun i hi => { h.code i hi with target := ?_ } }
  have hlength := hlimited.code
  obtain ⟨hlow, hhigh⟩ := (h.code i hi).target
  have hmax : Wire.Item.maxEntries = 131072 := rfl
  have hopen : unresolvedTarget = -1 := rfl
  simp only [fits64, Bool.and_eq_true, decide_eq_true_eq, twoTo_eq]
  omega

end Function.Written

theorem Function.name_declareAll (names : List String) (f : Function) :
    (names.foldl Function.declare f).name = f.name := by
  obtain ⟨scope, hscope⟩ := foldl_declare_eq names f
  rw [hscope]

theorem Function.written_new {name : String} {params : List String} (hname : TextFits name)
    (hparams : ∀ param ∈ params, TextFits param) : (Function.new name params).Written := by
  have hempty : ({ name := name, params? := some params } : Function).Written :=
    { name := hname, params := hparams, scope := List.forall_mem_nil _, code := List.forall_mem_nil _ }
  exact hempty.declareAll hparams

/-- A program as a compilation leaves it. -/
structure Program.Written (p : Program) : Prop where
  main : ∃ f, p.main? = some f
  functions : ∀ name f, p.functions.get? name = some f → f.Written ∧ f.name = name

theorem Program.Written.storable {p : Program} (h : p.Written) (hlimited : p.Limited) :
    p.Storable where
  main := h.main
  named := fun name f hf => (h.functions name f hf).2
  sized := fun name f hf => (h.functions name f hf).1.sized (hlimited.function name f hf)

theorem Program.Written.stored_eq {p : Program} (h : p.Written) : p.stored = p := by
  rw [Program.stored, Dict.map_eq_self fun name f hf => (h.functions name f hf).1.stored_eq]

end LineScript.Code

namespace LineScript.Compile

open LineScript.Code LineScript.Number

/-! ## Drafts -/

/-- What every compilation keeps: functions as they are written, each under its own name, lines
of machine size, and the top level at the bottom. -/
structure Draft.Written (d : Draft) : Prop where
  body : d.body.Written
  outer : ∀ top, d.outer? = some top → top.Written ∧ top.name = topLevel
  main : d.outer? = none → d.body.name = topLevel
  functions : ∀ name f, d.functions.get? name = some f → f.Written ∧ f.name = name
  rest : ∀ t ∈ d.rest, fits64 t.line = true
  consumed : ∀ line ∈ d.consumed?, fits64 line = true
  lastLine : fits64 d.lastLine = true

namespace Draft.Written

variable {d : Draft} {tokens : List Token}

theorem line (h : d.Written) : fits64 d.line = true := by
  unfold Draft.line Draft.peek
  cases hconsumed : d.consumed? with
  | some line => exact h.consumed line hconsumed
  | none =>
      cases hrest : d.rest with
      | nil => exact h.lastLine
      | cons t rest => exact h.rest t (by rw [hrest]; exact List.mem_cons_self)

/-- A new body under the name of the old one. -/
theorem withBody (h : d.Written) {body : Function} (hbody : body.Written)
    (hname : body.name = d.body.name) : ({ d with body := body } : Draft).Written :=
  { h with body := hbody, main := fun houter => hname.trans (h.main houter) }

theorem next (h : d.Written) : d.next.Written := by
  unfold Draft.next
  split
  · exact h
  · rename_i t rest hrest
    have hmem : t ∈ d.rest := by rw [hrest]; exact List.mem_cons_self
    refine { h with rest := fun u hu => ?_, consumed := fun line hline => ?_ }
    · exact h.rest u (by rw [hrest]; exact List.mem_cons_of_mem _ hu)
    · cases hline
      exact h.rest t hmem

theorem append (h : d.Written) {i : Instruction} (hi : i.Written d.body.length) :
    ({ d with body := d.body.emit i } : Draft).Written :=
  h.withBody (h.body.emit hi) rfl

theorem functions_insert (h : d.Written) {f : Function} {name : String} (hf : f.Written)
    (hname : f.name = name) : ∀ other g, (d.functions.insert name f).get? other = some g →
      g.Written ∧ g.name = other :=
  Dict.forall_get?_insert ⟨hf, hname⟩ h.functions

theorem enter (h : d.Written) {name : String} {params : List String} (houter : d.outer? = none)
    (hreserved : name ≠ topLevel) (hname : TextFits name)
    (hparams : ∀ param ∈ params, TextFits param) : (d.enter name params).Written := by
  have hnew : (Function.new name params).Written := Function.written_new hname hparams
  have hnamed : (Function.new name params).name = name := Function.name_declareAll _ _
  unfold Draft.enter
  rw [if_neg hreserved]
  refine { h with
    body := hnew, outer := ?_, main := nofun, functions := h.functions_insert hnew hnamed }
  rintro top ⟨⟩
  exact ⟨h.body, h.main houter⟩

theorem leave (h : d.Written) : d.leave.Written := by
  unfold Draft.leave
  split
  · exact h
  · rename_i top houter
    obtain ⟨htop, hname⟩ := h.outer top houter
    exact { h with
      body := htop, outer := nofun, main := fun _ => hname
      functions := h.functions_insert h.body rfl }

end Draft.Written

/-- The texts and lines of the tokens have machine size, and none is the negative zero. -/
structure Measured (tokens : List Token) : Prop where
  name : ∀ {name}, NameOf tokens name → TextFits name
  string : ∀ {l}, ConstantOf tokens l → TextFits l.string
  number : ∀ {l}, ConstantOf tokens l → l.number ≠ -0

/-- One step of a compilation writes names and constants of the tokens, on a line of theirs. -/
theorem Draft.Written.step {d d' : Draft} {tokens : List Token} (h : d.Written)
    (htokens : Measured tokens) (hstep : Draft.Step tokens d d') : d'.Written := by
  have hempty : TextFits "" := by decide
  have hplain : unresolvedTarget ≤ 0 ∧ (0 : Int) ≤ d.body.length :=
    ⟨by decide, Int.natCast_nonneg _⟩
  cases hstep with
  | next => exact h.next
  | emit op => exact h.append ⟨hempty, hempty, hplain, h.line, zero_ne⟩
  | emitValue hl =>
      exact h.append ⟨htokens.string hl, hempty, hplain, h.line, htokens.number hl⟩
  | emitName op hname => exact h.append ⟨hempty, htokens.name hname, hplain, h.line, zero_ne⟩
  | emitJump op =>
      exact h.append ⟨hempty, hempty, ⟨Int.le_refl _, Int.le_trans hplain.1 hplain.2⟩, h.line, zero_ne⟩
  | emitJumpTo op htarget =>
      exact h.append ⟨hempty, hempty,
        ⟨Int.le_trans hplain.1 (Int.natCast_nonneg _), Int.ofNat_le.mpr htarget⟩, h.line, zero_ne⟩
  | patchHere hpatch =>
      obtain ⟨body, hbody, rfl⟩ := patchHere_eq_ok hpatch
      refine h.withBody (h.body.patchHere hbody) ?_
      rw [Function.eq_of_patchHere hbody]
  | declare hname =>
      refine h.withBody (h.body.declare (htokens.name hname)) ?_
      unfold Function.declare
      split <;> rfl
  | enter houter hreserved _ hname hparams =>
      exact h.enter houter hreserved (htokens.name hname) fun param hparam =>
        htokens.name (hparams param hparam)
  | leave => exact h.leave

end LineScript.Compile

namespace LineScript.Compiler

open LineScript.Code LineScript.Compile LineScript.Number

/-! ## Compiled programs -/

theorem measured_of_bounded {tokens : List Token} {bound : Nat} (hbound : bound < 2 ^ 63)
    (h : ∀ t ∈ tokens, t.Bounded bound) : Measured tokens where
  name := by
    rintro _ ⟨t, ht, hkind, rfl⟩
    have := (h t ht).name hkind
    unfold TextFits
    omega
  string := by
    rintro l (rfl | ⟨t, ht, rfl⟩)
    · exact Nat.two_pow_pos 64
    · have := (h t ht).string
      unfold TextFits
      omega
  number := by
    rintro l (rfl | ⟨t, ht, rfl⟩)
    · exact zero_ne
    · exact (h t ht).number

theorem fits64_of_bounded {t : Token} {bound : Nat} (hbound : bound < 2 ^ 63) (h : t.Bounded bound) :
    fits64 t.line = true := by
  have hnonneg := h.line_nonneg
  have hle := h.line_le
  simp only [fits64, Bool.and_eq_true, decide_eq_true_eq, twoTo_eq]
  omega

/-- The draft that a compilation begins with. -/
theorem written_draft {c : Compiler} {tokens : List Token}
    (hprelude : ∀ q, c.prelude? = some q → q.Written)
    (hlines : ∀ t ∈ tokens, fits64 t.line = true) : (c.draft tokens).Written := by
  have htop : TextFits topLevel := by decide
  have hearlier : ∀ name f,
      ((c.prelude?.map fun q : Program => q.functions).getD ∅).get? name = some f →
        f.Written ∧ f.name = name := by
    intro name f hf
    cases hq : c.prelude? with
    | none =>
        rw [hq] at hf
        exact nomatch hf
    | some q =>
        rw [hq] at hf
        exact (hprelude q hq).functions name f hf
  unfold draft
  generalize (c.prelude?.map fun q : Program => q.functions).getD ∅ = earlier at hearlier ⊢
  have hvisible : ∀ name ∈ ((earlier.get? topLevel).map (·.scope.keys)).getD [], TextFits name := by
    intro name hname
    cases hmain : earlier.get? topLevel with
    | none =>
        rw [hmain] at hname
        exact nomatch hname
    | some f =>
        rw [hmain] at hname
        obtain ⟨e, he, rfl⟩ := List.mem_map.mp hname
        exact ((hearlier topLevel f hmain).1.scope e he).1
  have hbody := (Function.written_new htop (List.forall_mem_nil _)).declareAll hvisible
  refine ⟨hbody, nofun, fun _ => ?_, ?_, hlines, nofun, ?_⟩
  · exact Function.name_declareAll _ _
  · intro name f hf
    by_cases hname : name = topLevel
    · rw [hname, Dict.get?_erase_self] at hf
      cases hf
    · rw [Dict.get?_erase_of_ne _ hname] at hf
      exact hearlier name f hf
  · cases hlast : tokens.getLast? with
    | none =>
        dsimp only [Option.map_none, Option.getD_none]
        decide
    | some t => exact hlines t (List.mem_of_getLast? hlast)

/-- The draft that a compiled program is made of. -/
theorem exists_of_compile {c : Compiler} {tokens : List Token} {p : Program}
    (h : c.compile tokens = .ok p) : ∃ d, block (c.draft tokens) = .ok d ∧ p = d.program := by
  unfold compile at h
  cases hblock : block (c.draft tokens) with
  | error e =>
      rw [hblock] at h
      cases h
  | ok d =>
      rw [hblock, ok_bind] at h
      refine ⟨d, rfl, ?_⟩
      unfold Draft.checkResolved at h
      split at h
      · cases h
        rfl
      · cases h

/-- The steps of a compilation keep what is written. -/
theorem written_of_compile {c : Compiler} {tokens : List Token} {p : Program}
    (hdraft : (c.draft tokens).Written) (htokens : Measured tokens)
    (hnames : ∀ t ∈ tokens, t.kind = .identifier → t.text ≠ topLevel)
    (h : c.compile tokens = .ok p) : p.Written := by
  obtain ⟨d, hblock, rfl⟩ := exists_of_compile h
  obtain ⟨hsteps, houter⟩ := steps_of_block hnames (List.Subset.refl tokens) hblock
  have hwritten : d.Written := hsteps.keeps (fun _ _ h hstep => h.step htokens hstep) hdraft
  refine ⟨⟨d.body, Dict.get?_insert_self _ _ _⟩, ?_⟩
  exact hwritten.functions_insert hwritten.body (hwritten.main houter)

theorem written_of_compileSource {c : Compiler} {source : String} {p : Program}
    (hprelude : ∀ q, c.prelude? = some q → q.Written) (hsource : source.utf8ByteSize + 1 < 2 ^ 63)
    (h : c.compileSource source = .ok p) : p.Written := by
  unfold compileSource at h
  cases hscan : Token.scan source with
  | error e =>
      rw [hscan] at h
      cases h
  | ok tokens =>
      rw [hscan] at h
      have hbounded := Token.bounded_of_scan hscan
      have hnames : ∀ t ∈ tokens, t.kind = .identifier → t.text ≠ topLevel :=
        fun t ht hkind => (((Token.proper_of_scan hscan).1 t ht).2 hkind).2
      have hdraft : (c.draft tokens).Written :=
        written_draft hprelude fun t ht => fits64_of_bounded hsource (hbounded t ht)
      exact written_of_compile hdraft (measured_of_bounded hsource hbounded) hnames h

/-- The programs that compilers produce, from sources of machine size: the first of a session
by itself, each further one on top of an earlier one. -/
inductive Produced : Program → Prop
  | compiled {c : Compiler} {source : String} {p : Program}
      (hprelude : ∀ q, c.prelude? = some q → Produced q)
      (hsource : source.utf8ByteSize + 1 < 2 ^ 63) (h : c.compileSource source = .ok p) : Produced p

theorem Produced.written {p : Program} (h : Produced p) : p.Written := by
  induction h with
  | compiled _ hsource h ih => exact written_of_compileSource ih hsource h

end LineScript.Compiler

namespace LineScript.Wire

open LineScript.Code LineScript.Compiler

/-! ## The order of adding -/

/-- A function without variables, and the variables to add to it in order, with their markers. -/
abbrev Parts := Function × List (String × Option String)

/-- The function with its variables added one after the other. -/
def Parts.function (f : Parts) : Function := { f.1 with scope := .ofList f.2 }

/-- The program of functions that are added one after the other. -/
def assembled (fs : List Parts) : Program := ⟨.ofList (fs.map fun f => (f.1.name, f.function))⟩

/-- No name is added twice. -/
structure Distinct (fs : List Parts) : Prop where
  names : (fs.map (·.1.name)).Nodup
  scopes : ∀ f ∈ fs, (f.2.map (·.1)).Nodup

/-- The same functions with the same variables, both added in another order. -/
def Reordered (fs gs : List Parts) : Prop :=
  ∃ between, fs.Perm between ∧ List.Forall₂ (fun f g => f.1 = g.1 ∧ f.2.Perm g.2) between gs

theorem function_of_perm {f g : Parts} (hsame : f.1 = g.1) (hperm : f.2.Perm g.2)
    (hdistinct : (f.2.map (·.1)).Nodup) : f.function = g.function := by
  rw [Parts.function, Parts.function, hsame, Dict.ofList_perm hdistinct hperm]

/-- The order of adding leaves no trace in the program. -/
theorem assembled_of_reordered {fs gs : List Parts} (h : Reordered fs gs) (hdistinct : Distinct fs) :
    assembled fs = assembled gs := by
  obtain ⟨between, hperm, hsame⟩ := h
  have hscopes : ∀ f ∈ between, (f.2.map (·.1)).Nodup :=
    fun f hf => hdistinct.scopes f (hperm.mem_iff.mpr hf)
  have hfunctions : between.map (fun f => (f.1.name, f.function)) =
      gs.map fun f => (f.1.name, f.function) := by
    clear hperm
    induction hsame with
    | nil => rfl
    | cons hhead _ ih =>
        obtain ⟨hf, hrest⟩ := List.forall_mem_cons.mp hscopes
        rw [List.map_cons, List.map_cons, hhead.1, function_of_perm hhead.1 hhead.2 hf, ih hrest]
  unfold assembled
  rw [← hfunctions, Dict.ofList_perm ?_ (hperm.map _)]
  rw [List.map_map]
  exact hdistinct.names

/-- Programs and their bytes. Every program whose functions have a top level among them, are
stored under their own names and are within the sizes of machine and format comes back from its
bytes, with zero for each negative zero. The bytes are the same in whatever order functions and
variables were added. And what the compiler produces comes back as it was. -/
theorem decode_encode :
    (∀ p : Program, p.Storable → p.Limited → decode (encode p) = .ok p.stored) ∧
    (∀ fs gs : List Parts, Distinct fs → Reordered fs gs →
      encode (assembled fs) = encode (assembled gs)) ∧
    ∀ (c : Compiler) (source : String) (p : Program),
      (∀ q, c.prelude? = some q → Produced q) → source.utf8ByteSize + 1 < 2 ^ 63 →
        c.compileSource source = .ok p → p.Limited → decode (encode p) = .ok p := by
  refine ⟨fun p h hlimited => decode_encode_stored h hlimited, ?_, ?_⟩
  · intro fs gs hdistinct h
    rw [assembled_of_reordered h hdistinct]
  · intro c source p hprelude hsource h hlimited
    have hwritten := (Produced.compiled hprelude hsource h).written
    have hstored := decode_encode_stored (hwritten.storable hlimited) hlimited
    rw [hwritten.stored_eq] at hstored
    exact hstored

/-- A program that no compiler produces: an unassigned operation with all operands filled, the
negative zero among them, a placeholder left open, a variable without a marker and a function
without lists. -/
def handmade : List Parts :=
  [({ name := topLevel
      params? := some ["y", "x"]
      code? := some #[{
        op := .unassigned 3
        literal := ⟨.unassigned 7, -0, "é", true⟩
        name := "n"
        target := unresolvedTarget
        line := -5 }] }, [("x", none), ("y", some "z")]),
    ({ name := "f", params? := none, code? := none }, [])]

/-- The program comes back, it has the same bytes when everything is added in reverse, and a
compiled program with a function and a negated number comes back as it was. -/
theorem decode_encode_handmade :
    decode (encode (assembled handmade)) = .ok (assembled handmade).stored ∧
    encode (assembled handmade) =
      encode (assembled (handmade.reverse.map fun f => (f.1, f.2.reverse))) ∧
    ∃ p, Compiler.compileSource {} "func f(x)\nreturn -x\nend\nx = f(1)" = .ok p ∧
      decode (encode p) = .ok p := by
  refine ⟨decode_encode.1 _ (by decide +kernel) (by decide +kernel), ?_, ?_⟩
  · refine decode_encode.2.1 _ _ ⟨by decide, by decide⟩
      ⟨handmade.reverse, (List.reverse_perm _).symm, ?_⟩
    exact List.forall₂_map_right_iff.mpr
      (List.forall₂_same.mpr fun f _ => ⟨rfl, (List.reverse_perm _).symm⟩)
  · have hok : (Compiler.compileSource {} "func f(x)\nreturn -x\nend\nx = f(1)").toOption.any
        (fun p => decide p.Limited) = true := by decide +kernel
    cases hcompile : Compiler.compileSource {} "func f(x)\nreturn -x\nend\nx = f(1)" with
    | error e =>
        rw [hcompile] at hok
        cases hok
    | ok p =>
        rw [hcompile] at hok
        exact ⟨p, rfl, decode_encode.2.2 {} _ p (fun _ h => by cases h) (by decide) hcompile
          (of_decide_eq_true hok)⟩

end LineScript.Wire
