/-
# A session is the joined script

The entries of a session, put into one text line by line, are a script. Where each entry compiles on
top of those before it and runs to its end, the script compiles, and a fresh machine that runs it
comes to the same globals and the same heap and writes the same output. The session knows the
functions and the variables of the script.

An entry is passed in one step: the compilation of the script goes on where that of the entry ended,
and so does its run. The rest is an induction on the entries, for which only the script as a whole
has to be fixed.
-/

import LineScript.Proofs.JoinedRuns
import LineScript.Session

namespace LineScript.Token

/-! ## Joined texts -/

/-- The tokens of texts one after another; a line break in front of one may be left out. -/
inductive Joined : List String → List Token → Prop
  | nil : Joined [] []
  | cons {text : String} {rest : List String} {tokens tokens' more : List Token}
      (hscan : scan text = .ok tokens) (htrimmed : Trimmed tokens tokens') (h : Joined rest more) :
      Joined (text :: rest) (tokens' ++ more)

theorem trimmed_refl (tokens : List Token) : Trimmed tokens tokens := .inl rfl

/-- Each text behind the first adds its own tokens. -/
theorem scan_foldl {texts : List String}
    (htexts : ∀ text ∈ texts, '\x00' ∉ text.toList ∧ ∃ tokens, scan text = .ok tokens)
    {front : String} {tokens : List Token} (hfront : '\x00' ∉ front.toList)
    (hscan : scan front = .ok tokens) :
    ∃ more, scan (texts.foldl (fun out t => out ++ "\n" ++ t) front) = .ok (tokens ++ more) ∧
      Joined texts more := by
  induction texts generalizing front tokens with
  | nil => exact ⟨[], by rw [List.append_nil]; exact hscan, .nil⟩
  | cons text rest ih =>
      obtain ⟨⟨htext, tokens', hscan'⟩, hrest⟩ := List.forall_mem_cons.mp htexts
      obtain ⟨trimmed, happend, htrimmed⟩ := scan_append_break hfront hscan hscan'
      have hnul : '\x00' ∉ (front ++ "\n" ++ text).toList := by
        rw [String.toList_append, String.toList_append, List.mem_append, List.mem_append]
        rintro ((h | h) | h)
        · exact hfront h
        · exact absurd h (by decide)
        · exact htext h
      obtain ⟨more, hmore, hjoined⟩ := ih hrest hnul happend
      refine ⟨trimmed ++ more, ?_, .cons hscan' htrimmed hjoined⟩
      rw [← List.append_assoc]
      exact hmore

/-- Joined texts have the tokens of the texts. Where there is none, a line break is left over. -/
theorem scan_joined {texts : List String}
    (htexts : ∀ text ∈ texts, '\x00' ∉ text.toList ∧ ∃ tokens, scan text = .ok tokens) :
    ∃ tokens tokens', scan (Text.joined "\n" texts) = .ok tokens ∧ Trimmed tokens tokens' ∧
      Joined texts tokens' := by
  cases texts with
  | nil => exact ⟨_, [], rfl, .inr ⟨_, rfl, rfl⟩, .nil⟩
  | cons text rest =>
      obtain ⟨⟨htext, tokens, hscan⟩, hrest⟩ := List.forall_mem_cons.mp htexts
      obtain ⟨more, hmore, hjoined⟩ := scan_foldl hrest htext hscan
      exact ⟨_, _, hmore, trimmed_refl _, .cons hscan (trimmed_refl _) hjoined⟩

end LineScript.Token

namespace LineScript.Code

/-! ## Programs up to lines -/

/-- A function without the lines of its instructions. -/
def Function.unplaced (f : Function) : Function :=
  { f with code? := f.code?.map (·.map Instruction.unplaced) }

/-- Programs with the same functions, up to lines, and the same variables of the top level. -/
structure Program.KnowsAs (p q : Program) : Prop where
  functions : ∀ name, name ≠ topLevel →
    (p.function? name).map Function.unplaced = (q.function? name).map Function.unplaced
  declared : p.main?.map (·.scope) = q.main?.map (·.scope)

theorem Function.Copies.unplaced_eq {f f' : Function} (h : Copies [] f f') :
    f.unplaced = f'.unplaced := by
  obtain ⟨hwritten, hwritten'⟩ := h.written
  obtain ⟨code, hcode⟩ := Option.isSome_iff_exists.mp hwritten
  obtain ⟨code', hcode'⟩ := Option.isSome_iff_exists.mp hwritten'
  have hsame := h.code
  rw [List.nil_append, List.length_nil, List.map_congr_left fun i _ => Instruction.moved_zero i]
    at hsame
  unfold Function.code at hsame
  rw [hcode, hcode', Option.getD_some, Option.getD_some] at hsame
  have hmapped : code.map Instruction.unplaced = code'.map Instruction.unplaced := by
    apply Array.toList_inj.mp
    rw [Array.toList_map, Array.toList_map, hsame]
  unfold Function.unplaced
  rw [hcode, hcode', Option.map_some, Option.map_some, hmapped]
  obtain ⟨name, params?, scope, code?⟩ := f
  obtain ⟨name', params?', scope', code?'⟩ := f'
  have hname : name' = name := h.name
  have hparams : params?' = params? := h.params
  have hscope : scope' = scope := h.scope
  rw [hname, hparams, hscope]

theorem Function.Copies.shape_eq {f f' : Function} (h : Copies [] f f') : f'.shape = f.shape := by
  have hcode := h.code
  rw [List.nil_append, List.length_nil, List.map_congr_left fun i _ => Instruction.moved_zero i]
    at hcode
  have hparams : f'.params = f.params := by
    unfold Function.params
    rw [h.params]
  unfold shape
  rw [hcode, hparams, funext h.declares_eq]

end LineScript.Code

namespace LineScript.Compiler

open LineScript.Code LineScript.Compile LineScript.Tree LineScript.Machine

theorem Continues.shapes_eq {c : Compiler} {d : Draft} (h : c.Continues d) : d.shapes = c.shapes := by
  funext name
  change (d.functions.get? name).map Function.shape =
    ((c.draft []).functions.get? name).map Function.shape
  have hfunction := h.functions name
  generalize (c.draft []).functions.get? name = f at hfunction ⊢
  generalize d.functions.get? name = f' at hfunction ⊢
  cases hfunction with
  | none => rfl
  | some hcopies => exact congrArg some hcopies.shape_eq

/-- A program holds what a compilation has written, and its functions are no host functions. -/
structure Holds (natives : Dict (List String)) (q : Program) (d : Draft) : Prop where
  code : ∃ main after, q.main? = some main ∧
    main.code.toList.map Instruction.unplaced = d.code ++ after
  shapes : ∀ name shape, d.shapes name = some shape →
    (q.function? name).map Function.shape = some shape
  natives : ∀ name, natives.contains name = true → name ≠ topLevel → q.functions.get? name = none

/-- A program that holds what was written up to the end of an entry holds the program of the
entry. -/
theorem Entered.part {c : Compiler} {p q : Program} {b : Block} {more : List Token} {d d' : Draft}
    (h : Entered c p more d d') (hd : c.Continues d) (hcompiles : c.Compiles b p) (hkeyed : p.Keyed)
    (hfitting : Fitting c p) (hq : Holds c.natives q d') :
    Holds c.natives q d ∧ Part c d.code p q := by
  obtain ⟨main, hmain, hcode⟩ := h.code
  obtain ⟨main', after, hmain', hcode'⟩ := hq.code
  rw [hcode] at hcode'
  have hshapes := h.continues.shapes_eq
  refine ⟨⟨⟨main', _, hmain', by rw [hcode', List.append_assoc]⟩, fun name shape hshape => ?_,
    hq.natives⟩, hkeyed, hfitting, ?_, fun name f hname hf => ?_, fun name hnative hname _ =>
    hq.natives name hnative hname⟩
  · rw [hd.shapes_eq] at hshape
    apply hq.shapes
    rw [hshapes]
    exact hcompiles.shapes_of_prelude hshape
  · intro main₁ hmain₁
    rw [hmain] at hmain₁
    cases hmain₁
    exact ⟨main', after, hmain', hcode'⟩
  · have hfound := hq.shapes name f.shape (by
      rw [hshapes, shapes_prelude, if_neg hname, hf]
      rfl)
    exact Option.map_eq_some_iff.mp hfound

end LineScript.Compiler

namespace LineScript.Session

open LineScript.Code LineScript.Compile LineScript.Machine LineScript.Tree

/-! ## Entries -/

/-- Entries are evaluated one after another. Each one compiles and runs to the end of its top level;
together they write the output. -/
inductive Evaluates : Session → List String → String → Session → Prop
  | nil (s : Session) : s.Evaluates [] "" s
  | cons {s s' s'' : Session} {entry : String} {rest : List String} {p : Program}
      {report : Machine.Report} {output : String} (hcompile : s.compile entry = .ok p)
      (hthrough : s.machine.RunsThrough p) (heval : s.eval entry = .ok (report, s'))
      (h : s'.Evaluates rest output s'') : s.Evaluates (entry :: rest) (report.output ++ output) s''

/-- What the next entry is compiled with. -/
def current (s : Session) : Compiler := { s.compiler with prelude? := s.prelude? }

theorem eval_eq_ok {s s' : Session} {entry : String} {p : Program} {report : Machine.Report}
    (hcompile : s.compile entry = .ok p) (heval : s.eval entry = .ok (report, s')) :
    report = s.machine.run p ∧
      s' = { s with prelude? := some p, machine := (s.machine.run p).machine } := by
  unfold eval at heval
  rw [hcompile] at heval
  cases heval
  exact ⟨rfl, rfl⟩

theorem scan_of_compile {s : Session} {entry : String} {p : Program}
    (hcompile : s.compile entry = .ok p) :
    ∃ tokens, Token.scan entry = .ok tokens ∧ s.current.compile tokens = .ok p := by
  unfold compile Compiler.compileSource at hcompile
  cases hscan : Token.scan entry with
  | error e =>
      rw [hscan] at hcompile
      cases hcompile
  | ok tokens =>
      rw [hscan] at hcompile
      exact ⟨tokens, rfl, hcompile⟩

theorem Evaluates.scans {s s' : Session} {entries : List String} {output : String}
    (h : s.Evaluates entries output s') :
    ∀ entry ∈ entries, ∃ tokens, Token.scan entry = .ok tokens := by
  induction h with
  | nil => nofun
  | cons hcompile _ _ _ ih =>
      obtain ⟨tokens, hscan, -⟩ := scan_of_compile hcompile
      exact List.forall_mem_cons.mpr ⟨⟨tokens, hscan⟩, ih⟩

/-- What holds of a session between two entries. -/
structure Settled (s : Session) : Prop where
  keyed : ∀ p, s.current.prelude? = some p → p.Keyed
  apart : s.current.Apart
  traced : s.current.Traced
  served : Served s.current s.machine.natives
  heedless : Heedless s.machine.natives
  free : s.machine.limits.Free

variable {s s' : Session}

theorem Settled.entered {entry : String} {p : Program} {report : Machine.Report} (hs : s.Settled)
    (hcompile : s.compile entry = .ok p) (hthrough : s.machine.RunsThrough p)
    (heval : s.eval entry = .ok (report, s')) :
    p.Keyed ∧ Fitting s.current p ∧ (∃ b, s.current.Compiles b p) ∧ s'.Settled := by
  obtain ⟨tokens, hscan, htokens⟩ := scan_of_compile hcompile
  obtain ⟨a, hblock, rfl⟩ := Compiler.exists_of_compile htokens
  obtain ⟨-, houter, hdraft⟩ := Compiler.ends_of_block hs.keyed hscan hblock
  obtain ⟨-, b, -, -, hcompiles⟩ := Compiler.exists_tree (c := s.current) hcompile
  have hkeyed := hdraft.program houter
  have hfitting := hcompiles.fitting hs.traced
  obtain ⟨main, hmain, -⟩ := Option.map_eq_some_iff.mp hcompiles.main
  obtain ⟨-, t, -, ht, -, -, -, -, steps, hmachine⟩ :=
    hthrough.ends hkeyed hfitting hmain hs.served hs.heedless
  obtain ⟨-, rfl⟩ := eval_eq_ok hcompile heval
  refine ⟨hkeyed, hfitting, ⟨b, hcompiles⟩, ?_, hcompiles.apart hs.apart, hcompiles.traced hs.traced,
    Registry.served_runFor hfitting hs.served _ _, ?_, ?_⟩
  · rintro _ ⟨⟩
    exact hkeyed
  · dsimp only
    rw [hmachine]
    exact ht.heedless
  · dsimp only
    rw [hmachine]
    exact hs.free

/-- The longer script passes all entries. -/
theorem Evaluates.passes {entries : List String} {output : String}
    (h : s.Evaluates entries output s') (hs : s.Settled) {tokens : List Token}
    (hjoined : Token.Joined entries tokens) {d : Draft} (hd : s.current.Continues d)
    (hrest : d.rest.map Token.unplaced = tokens.map Token.unplaced)
    (hnamed : ∀ t ∈ d.rest, t.kind = .identifier → t.text ≠ topLevel) (fuel : Nat) :
    (∃ fuel' d', blockWith fuel [] d = blockWith fuel' [] d' ∧ s'.current.Continues d' ∧
        d'.rest = [] ∧ s'.Settled ∧
        ∀ q main, q.main? = some main → Compiler.Holds s.compiler.natives q d' →
          Compiler.Holds s.compiler.natives q d ∧
          ∀ written steps trace?, ∃ count steps' trace?', Steps q s.machine.limits count
            (s.machine.resting main d.code.length written steps trace?)
            (s'.machine.resting main d'.code.length (written ++ output) steps' trace?')) ∨
      ∃ e, blockWith fuel [] d = .error e ∧ e.kind = .internalError := by
  induction h generalizing tokens d fuel with
  | nil s =>
      cases hjoined
      refine .inl ⟨fuel, d, rfl, hd, List.map_eq_nil_iff.mp hrest, hs, fun q main _ hq => ⟨hq, ?_⟩⟩
      intro written steps trace?
      rw [String.append_empty]
      exact ⟨0, steps, trace?, .refl _⟩
  | @cons s s₁ s' entry rest p report output hcompile hthrough heval h ih =>
      cases hjoined with
      | @cons _ _ tokens₀ tokens' more hscan htrimmed hmore =>
          obtain ⟨_, hscan₀, htokens⟩ := scan_of_compile hcompile
          cases hscan.symm.trans hscan₀
          obtain ⟨hkeyed, hfitting, ⟨b, hcompiles⟩, hs₁⟩ := hs.entered hcompile hthrough heval
          obtain ⟨rfl, rfl⟩ := eval_eq_ok hcompile heval
          obtain ⟨fuel₁, d₁, hblock, hentered⟩ | ⟨e, he, hinternal⟩ :=
            hd.entered hs.keyed hscan htokens htrimmed hrest hnamed fuel
          · have hnamed₁ : ∀ t ∈ d₁.rest, t.kind = .identifier → t.text ≠ topLevel := by
              have hall := Compiler.named_of_unplaced hrest.symm hnamed
              exact Compiler.named_of_unplaced hentered.rest fun t ht =>
                hall t (List.mem_append_right _ ht)
            obtain ⟨fuel', d', hblock', hd', hend, hs', hholds⟩ | ⟨e, he, hinternal⟩ :=
              ih hs₁ hmore hentered.continues hentered.rest hnamed₁ fuel₁
            · refine .inl ⟨fuel', d', hblock.trans hblock', hd', hend, hs', fun q main hmain hq => ?_⟩
              obtain ⟨hq₁, hruns₁⟩ := hholds q main hmain hq
              obtain ⟨hq₀, hpart⟩ := hentered.part hd hcompiles hkeyed hfitting hq₁
              refine ⟨hq₀, fun written steps trace? => ?_⟩
              obtain ⟨main₀, hmain₀, hcode⟩ := hentered.code
              obtain ⟨count, steps₁, trace?₁, hsteps⟩ := hpart.runs hmain₀ hmain hs.served hs.heedless
                hs.free hthrough written steps trace?
              obtain ⟨count', steps₂, trace?₂, hsteps'⟩ :=
                hruns₁ (written ++ (s.machine.run p).output) steps₁ trace?₁
              have hlength : d₁.code.length = d.code.length + main₀.length := by
                rw [hcode, List.length_append, List.length_map, Array.length_toList]
                rfl
              rw [hlength, limits_run, String.append_assoc] at hsteps'
              exact ⟨count + count', steps₂, trace?₂, hsteps.trans hsteps'⟩
            · exact .inr ⟨e, hblock.trans he, hinternal⟩
          · exact .inr ⟨e, he, hinternal⟩

end LineScript.Session

namespace LineScript.Compiler

open LineScript.Code LineScript.Compile

/-- A script whose compilation comes to the end of its input compiles. -/
theorem compile_of_block {c : Compiler} {source : String} {tokens : List Token} {fuel fuel' : Nat}
    {first d : Draft} (hscan : Token.scan source = .ok tokens)
    (hfirst : block (c.draft tokens) = blockWith fuel [] first)
    (hblock : blockWith fuel [] first = blockWith fuel' [] d) (hend : d.rest = []) :
    c.compile tokens = .ok d.program := by
  have hcompile : c.compile tokens = (blockWith fuel' [] d >>= fun d =>
      d.checkResolved >>= fun d => .ok d.program) := by
    rw [← hblock, ← hfirst]
    rfl
  cases fuel' with
  | zero => exact absurd rfl (c.kind_of_compile hscan hcompile)
  | succ fuel' =>
      have hatEnd : d.atEnd = true := decide_eq_true (Draft.peek_of_rest_eq_nil hend)
      rw [blockWith_succ, hatEnd, Bool.true_or, if_pos rfl] at hcompile
      cases hresolved : d.body.unresolved with
      | nil =>
          rw [ok_bind] at hcompile
          unfold Draft.checkResolved at hcompile
          rw [hresolved] at hcompile
          exact hcompile
      | cons address addresses =>
          rw [ok_bind] at hcompile
          unfold Draft.checkResolved at hcompile
          rw [hresolved] at hcompile
          exact absurd rfl (c.kind_of_compile hscan hcompile)

/-- What a session knows is what the program of a compilation knows that stands where it
stands. -/
theorem Continues.knowsAs {c : Compiler} {d : Draft} (h : c.Continues d) :
    (c.prelude?.getD .new).KnowsAs d.program := by
  constructor
  · intro name hname
    have hfunction := h.functions name
    have hearlier : (c.draft []).functions.get? name = (c.prelude?.getD .new).function? name := by
      unfold Compiler.draft
      dsimp only
      rw [Dict.get?_erase_of_ne _ hname]
      cases c.prelude? with
      | none => exact (Dict.get?_insert_of_ne _ _ hname).symm
      | some p => rfl
    rw [hearlier] at hfunction
    have hlast : d.program.function? name = d.functions.get? name := Dict.get?_insert_of_ne _ _ hname
    rw [hlast]
    generalize (c.prelude?.getD .new).function? name = f at hfunction ⊢
    generalize d.functions.get? name = f' at hfunction ⊢
    cases hfunction with
    | none => rfl
    | some hcopies => exact congrArg some hcopies.unplaced_eq
  · rw [h.declared]
    exact (congrArg (Option.map (·.scope)) (Dict.get?_insert_self d.functions topLevel d.body)).symm

/-- The program of a finished compilation holds what was written. -/
theorem Continues.holds {c : Compiler} {d : Draft} (h : c.Continues d) (hc : c.Apart) :
    Holds c.natives d.program d := by
  have hlast : ∀ name, name ≠ topLevel → d.program.function? name = d.functions.get? name :=
    fun name hname => Dict.get?_insert_of_ne _ _ hname
  refine ⟨⟨d.body, [], Dict.get?_insert_self _ _ _, (List.append_nil _).symm⟩,
    fun name shape hshape => ?_, fun name hnative hname => ?_⟩
  · have hname : name ≠ topLevel := by
      rintro rfl
      rw [h.shapes_eq, shapes_topLevel] at hshape
      cases hshape
    rw [hlast name hname]
    exact hshape
  · have hnone : d.shapes name = none := by
      rw [h.shapes_eq]
      exact hc name hnative
    exact (hlast name hname).trans (Option.map_eq_none_iff.mp hnone)

end LineScript.Compiler

namespace LineScript.Registry

open LineScript.Machine

/-! ## Fresh machines -/

/-- Binding host functions changes nothing else. -/
theorem bindAll_eq (entries : List Entry) (m : Machine) :
    (bindAll m entries).1 = { m with natives := (bindAll m entries).1.natives } := by
  induction entries generalizing m with
  | nil => rfl
  | cons e rest ih =>
      unfold bindAll
      split
      · exact ih _
      · rfl

/-- Keeping a record makes no difference to what is bound. -/
theorem bindAll_tracing (entries : List Entry) (m : Machine) (tracing : Bool) :
    bindAll { m with tracing := tracing } entries =
      ({ (bindAll m entries).1 with tracing := tracing }, (bindAll m entries).2) := by
  induction entries generalizing m with
  | nil => rfl
  | cons e rest ih =>
      unfold bindAll
      cases Signature.parse e.signature with
      | ok params => exact ih (m.bind e.name params.length e.native)
      | error cause => rfl

/-- What holds of each entry when it is bound, and of the host functions from before, holds of all
host functions. -/
theorem forall_get?_bindAll {P : String → Bound → Prop} {entries : List Entry}
    (hentries : ∀ e ∈ entries, ∀ arity, P e.name { native := e.native, arity := arity }) {m : Machine}
    (hm : ∀ name bound, m.natives.get? name = some bound → P name bound) :
    ∀ name bound, (bindAll m entries).1.natives.get? name = some bound → P name bound := by
  induction entries generalizing m with
  | nil => exact hm
  | cons e rest ih =>
      obtain ⟨he, hrest⟩ := List.forall_mem_cons.mp hentries
      unfold bindAll
      split
      · exact ih hrest (Dict.forall_get?_insert (he _) hm)
      · exact hm

theorem bindAll_of_machine {r : Registry} {m m' : Machine} (h : r.machine m = .ok m') :
    bindAll m r.entries = (m', none) := by
  unfold machine at h
  split at h
  · rename_i hbind
    cases h
    exact hbind
  · cases h

theorem host_eq_ok {r : Registry} {limits : Limits} {tracing : Bool} {fresh : Host}
    (h : r.host limits tracing = .ok fresh) : r.compiler = .ok fresh.compiler ∧
      r.machine { limits := limits, tracing := tracing } = .ok fresh.machine := by
  unfold Registry.host at h
  cases hcompiler : r.compiler with
  | error e =>
      rw [hcompiler] at h
      cases h
  | ok c =>
      cases hmachine : r.machine { limits := limits, tracing := tracing } with
      | error e =>
          rw [hcompiler, hmachine] at h
          cases h
      | ok m =>
          rw [hcompiler, hmachine] at h
          cases h
          exact ⟨rfl, rfl⟩

end LineScript.Registry

namespace LineScript.Session

open LineScript.Code LineScript.Compile LineScript.Machine

theorem new_eq_ok {r : Registry} {limits : Limits} {tracing : Bool} {s : Session}
    (h : Session.new r limits tracing = .ok s) :
    s.prelude? = none ∧ r.host limits tracing = .ok ⟨s.compiler, s.machine⟩ := by
  unfold Session.new at h
  cases hhost : r.host limits tracing with
  | error e =>
      rw [hhost] at h
      cases h
  | ok host =>
      rw [hhost] at h
      cases h
      exact ⟨rfl, rfl⟩

variable {r : Registry} {limits : Limits} {tracing tracing' : Bool} {s s' : Session}

/-- A fresh session is settled when its host functions take no notice of what was
written. -/
theorem settled_new (hheedless : ∀ e ∈ r.entries, ∀ before, e.native.Heedless before)
    (hs : Session.new r limits tracing = .ok s) (hfree : limits.Free) :
    s.current = s.compiler ∧ s.compiler.prelude? = none ∧ s.Settled := by
  obtain ⟨hprelude, hhost⟩ := new_eq_ok hs
  obtain ⟨hcompiler, hmachine⟩ := Registry.host_eq_ok hhost
  have hnone : s.compiler.prelude? = none := Registry.prelude?_installCompiler hcompiler
  have hcurrent : s.current = s.compiler := by
    unfold current
    rw [hprelude, ← hnone]
  have hbind := Registry.bindAll_of_machine hmachine
  obtain ⟨htraced, hserved⟩ := (Registry.Prepares.installed hcompiler hmachine).traced_served
  refine ⟨hcurrent, hnone, ?_, ?_, ?_, ?_, ?_, ?_⟩
  · intro p hp
    rw [hcurrent, hnone] at hp
    cases hp
  · rw [hcurrent]
    exact Compiler.apart_of_prelude?_eq_none hnone
  · rw [hcurrent]
    exact htraced
  · rw [hcurrent]
    exact hserved
  · have hkept : Heedless _ := Registry.forall_get?_bindAll (fun e he _ => hheedless e he)
      (m := { limits := limits, tracing := tracing }) nofun
    rw [hbind] at hkept
    exact hkept
  · have hlimits := congrArg Machine.limits
      (Registry.bindAll_eq r.entries { limits := limits, tracing := tracing })
    rw [hbind] at hlimits
    dsimp only at hlimits
    rw [hlimits]
    exact hfree

/-- Another machine of the same registry differs in nothing but the record it may keep. -/
theorem fresh_eq {fresh : Host} (hs : Session.new r limits tracing = .ok s)
    (hfresh : r.host limits tracing' = .ok fresh) :
    fresh.compiler = s.compiler ∧ fresh.machine = { s.machine with tracing := tracing' } := by
  obtain ⟨-, hhost⟩ := new_eq_ok hs
  obtain ⟨hcompiler, hmachine⟩ := Registry.host_eq_ok hhost
  obtain ⟨hcompiler', hmachine'⟩ := Registry.host_eq_ok hfresh
  have hbind := Registry.bindAll_of_machine hmachine
  have hbind' := Registry.bindAll_of_machine hmachine'
  have hsame := Registry.bindAll_tracing r.entries { limits := limits, tracing := tracing } tracing'
  rw [hbind, hbind'] at hsame
  exact ⟨Except.ok.inj (hcompiler'.symm.trans hcompiler), congrArg Prod.fst hsame⟩

/-! ## The joined script -/

theorem Evaluates.compiler_eq {entries : List String} {output : String}
    (h : s.Evaluates entries output s') : s'.compiler = s.compiler := by
  induction h with
  | nil => rfl
  | cons hcompile _ heval _ ih =>
      obtain ⟨-, rfl⟩ := eval_eq_ok hcompile heval
      exact ih

/-- The script that the entries make up compiles, and takes a machine from where the session began to
where it ended. -/
theorem Evaluates.script {entries : List String} {output : String} (h : s.Evaluates entries output s')
    (hs : s.Settled) (hnone : s.current.prelude? = none)
    (hentries : ∀ entry ∈ entries, '\x00' ∉ entry.toList) :
    ∃ q main, s.current.compileSource (Text.joined "\n" entries) = .ok q ∧ q.main? = some main ∧
      (s'.prelude?.getD .new).KnowsAs q ∧
      ∀ trace?, ∃ count steps trace?', Steps q s.machine.limits count
        (s.machine.resting main 0 "" 0 trace?)
        (s'.machine.resting main main.length output steps trace?') := by
  obtain ⟨tokens, tokens', hscan, htrimmed, hjoined⟩ :=
    Token.scan_joined fun entry hentry => ⟨hentries entry hentry, h.scans entry hentry⟩
  obtain ⟨hproper, -, -⟩ := Token.proper_of_scan hscan
  have hnamed : ∀ t ∈ tokens, t.kind = .identifier → t.text ≠ topLevel :=
    fun t ht hkind => ((hproper t ht).2 hkind).2
  have hdraft := Compiler.Continues.draft hnone tokens
  have hcode := (s.current.draft_code tokens).1
  -- Only where there is no entry, a line break has to be passed over first.
  obtain ⟨fuel, first, hfirst, hcontinues, hempty, hrest, hnamed'⟩ : ∃ fuel first,
      block (s.current.draft tokens) = blockWith fuel [] first ∧ s.current.Continues first ∧
      first.code = [] ∧ first.rest.map Token.unplaced = tokens'.map Token.unplaced ∧
      ∀ t ∈ first.rest, t.kind = .identifier → t.text ≠ topLevel := by
    obtain hsame | ⟨t, hbreak, hsame⟩ := htrimmed
    · exact ⟨_, _, rfl, hdraft, hcode, hsame, hnamed⟩
    · obtain ⟨t₀, tokens₀, rfl, rfl, hrest₀⟩ := List.map_eq_cons_iff.mp hsame
      refine ⟨_, (s.current.draft (t₀ :: tokens₀)).next, Compiler.blockWith_lineBreak
        (d := s.current.draft (t₀ :: tokens₀)) hbreak (4 * (tokens₀.length + 1) + 2),
        ⟨hdraft.declared, hdraft.body, hdraft.outer, hdraft.functions, hdraft.natives⟩, hcode, hrest₀,
        (List.forall_mem_cons.mp hnamed).2⟩
  obtain ⟨fuel', d, hblock, hd, hend, hs', hholds⟩ | ⟨e, he, hinternal⟩ :=
    h.passes hs hjoined hcontinues hrest hnamed' fuel
  · have hcompile := Compiler.compile_of_block hscan hfirst hblock hend
    have hq := hd.holds hs'.apart
    rw [show s'.current.natives = s'.compiler.natives from rfl, h.compiler_eq] at hq
    obtain ⟨-, hruns⟩ := hholds d.program d.body (Dict.get?_insert_self _ _ _) hq
    refine ⟨d.program, d.body, ?_, Dict.get?_insert_self _ _ _, hd.knowsAs, fun trace? => ?_⟩
    · unfold Compiler.compileSource
      rw [hscan]
      exact hcompile
    · obtain ⟨count, steps, trace?', hsteps⟩ := hruns "" 0 trace?
      rw [hempty, Draft.length_code, String.empty_append] at hsteps
      exact ⟨count, steps, trace?', hsteps⟩
  · have hfailed : s.current.compile tokens = .error e := by
      unfold Compiler.compile
      rw [hfirst, he]
      rfl
    exact absurd hinternal (s.current.kind_of_compile hscan hfailed)

/-- A machine that rests at the end of the top level is done. -/
theorem proceed_of_resting {q : Program} {m m' : Machine} {main : Function} {count steps : Nat}
    {output : String} {trace? trace?' : Option String} (hfree : limits.Free)
    (hsteps : Steps q limits count (m.resting main 0 "" 0 trace?)
      (m'.resting main main.length output steps trace?')) (more : Nat) :
    ∃ t, proceed q limits false (count + 1 + more) (m.resting main 0 "" 0 trace?) =
        (.value .null, t) ∧
      t.globals = m'.globals ∧ t.world = { heap := m'.heap, output := output } := by
  have hend : main.code[main.length]? = none := Array.getElem?_eq_none (Nat.le_refl _)
  have hip : (m'.resting main main.length output steps trace?').frame.ip = main.length := rfl
  have hstep := step_of_ip (p := q) hfree.steps hip
  rw [show (m'.resting main main.length output steps trace?').frame.function.code[main.length]? = none
    from hend] at hstep
  rw [Nat.add_assoc, proceed_of_steps hsteps, Nat.add_comm 1 more]
  unfold proceed
  rw [hstep]
  exact ⟨_, rfl, rfl, rfl⟩

/-- The script does what the session did, on any machine that the same registry prepares, when its host
functions take no notice of what was written. -/
theorem Evaluates.runFor_script {fresh : Host} {entries : List String} {output : String}
    (hheedless : ∀ e ∈ r.entries, ∀ before, e.native.Heedless before)
    (hs : Session.new r limits tracing = .ok s) (hfree : limits.Free)
    (hentries : ∀ entry ∈ entries, '\x00' ∉ entry.toList) (h : s.Evaluates entries output s')
    (hfresh : r.host limits tracing' = .ok fresh) :
    ∃ q, fresh.compiler.compileSource (Text.joined "\n" entries) = .ok q ∧
      (s'.prelude?.getD .new).KnowsAs q ∧
      ∃ patience, ∀ more,
        let report := fresh.machine.runFor (patience + more) q
        report.outcome = .value .null ∧ report.machine.globals = s'.machine.globals ∧
          report.machine.heap = s'.machine.heap ∧ report.output = output := by
  obtain ⟨hcurrent, hnone, hsettled⟩ := settled_new hheedless hs hfree
  obtain ⟨hcompiler, hmachine⟩ := fresh_eq hs hfresh
  obtain ⟨q, main, hcompile, hmain, hknows, hruns⟩ :=
    h.script hsettled (by rw [hcurrent]; exact hnone) hentries
  rw [hcurrent, ← hcompiler] at hcompile
  obtain ⟨count, steps, trace?, hsteps⟩ := hruns (if tracing' then some "" else none)
  refine ⟨q, hcompile, hknows, count + 1, fun more => ?_⟩
  obtain ⟨t, hproceed, hglobals, hworld⟩ := proceed_of_resting hsettled.free hsteps more
  have hrun : fresh.machine.runFor (count + 1 + more) q = fresh.machine.report (.value .null) t := by
    rw [hmachine]
    unfold Machine.runFor
    rw [hmain]
    dsimp only
    rw [show Machine.start { s.machine with tracing := tracing' } main =
      s.machine.resting main 0 "" 0 (if tracing' then some "" else none) from rfl, hproceed]
  rw [hrun]
  exact ⟨rfl, hglobals, congrArg World.heap hworld, congrArg World.output hworld⟩

end LineScript.Session

namespace LineScript.Native

open LineScript.Machine

/-! ## The standard host functions -/

theorem heedless_unary {f : Value → World → Reply × World} {before : String}
    (h : ∀ v w, f v (w.behind before) = ((f v w).1, (f v w).2.behind before)) :
    (unary f).Heedless before := by
  intro calls args w
  cases args with
  | nil => rfl
  | cons v rest => exact h v w

theorem heedless_binary {f : Value → Value → World → Reply × World} {before : String}
    (h : ∀ a b w, f a b (w.behind before) = ((f a b w).1, (f a b w).2.behind before)) :
    (binary f).Heedless before := by
  intro calls args w
  match args with
  | [] | [_] => rfl
  | a :: b :: _ => exact h a b w

/-- A writer that fails does so whatever was written before. -/
theorem write_behind (out : Writer) (number : Nat) (text : String) (w : World) (before : String) :
    out.write number text (w.behind before) =
      ((out.write number text w).1, (out.write number text w).2.behind before) := by
  unfold Writer.write World.behind
  cases out.failure? number text <;> simp only [String.append_assoc]

theorem heedless_log (out : Writer) (before : String) : (log out).Heedless before := by
  intro calls
  have hline : (unary fun v w => out.write calls (line w.heap v) w).Heedless before :=
    heedless_unary fun v w => write_behind out calls (line w.heap v) w before
  exact hline calls

theorem heedless_length (before : String) : length.Heedless before := by
  refine heedless_unary fun v w => ?_
  cases v with
  | ref place => cases place <;> rfl
  | _ => rfl

theorem heedless_text (before : String) : text.Heedless before := heedless_unary fun _ _ => rfl

theorem heedless_number (before : String) : number.Heedless before := by
  refine heedless_unary fun v w => ?_
  cases v with
  | string s =>
      dsimp only
      cases Number.read? (Text.trim s) <;> rfl
  | _ => rfl

theorem heedless_push (before : String) : push.Heedless before := by
  refine heedless_binary fun c v w => ?_
  cases c with
  | ref place => cases place <;> rfl
  | _ => rfl

theorem heedless_keys (before : String) : keys.Heedless before := by
  refine heedless_unary fun v w => ?_
  cases v with
  | ref place => cases place <;> rfl
  | _ => rfl

theorem heedless_numeric (name : String) (f : Float → Float) (before : String) :
    (numeric name f).Heedless before := by
  refine heedless_unary fun v w => ?_
  cases v <;> rfl

/-- None of the standard host functions takes notice of what was written. -/
theorem heedless_standard (out : Writer) :
    ∀ e ∈ (Registry.standard out).entries, ∀ before, e.native.Heedless before := by
  unfold Registry.standard
  simp only [List.forall_mem_cons]
  exact ⟨heedless_log out, heedless_length, heedless_text, heedless_number, heedless_push, heedless_keys,
    heedless_numeric _ _, heedless_numeric _ _, heedless_numeric _ _, nofun⟩

end LineScript.Native

namespace LineScript.Session

open LineScript.Code LineScript.Machine

/-! ## Sessions and scripts -/

/-- An interactive session is the joined script. Entries that are evaluated one after another, each
of them compiling and running to the end of its top level, make up a script that compiles. A fresh
machine with the same writer runs it to its end and comes to the globals and the heap of the session,
and it writes what the session wrote. The session's last program has the functions of the script, up
to lines, and the variables of its top level. -/
theorem runs_as_script {out : Native.Writer} {limits : Limits} {tracing tracing' : Bool} {s s' : Session}
    {fresh : Host} {entries : List String} {output : String}
    (hs : Session.new (Registry.standard out) limits tracing = .ok s) (hfree : limits.Free)
    (hentries : ∀ entry ∈ entries, '\x00' ∉ entry.toList) (h : s.Evaluates entries output s')
    (hfresh : (Registry.standard out).host limits tracing' = .ok fresh) :
    ∃ q, fresh.compiler.compileSource (Text.joined "\n" entries) = .ok q ∧
      (s'.prelude?.getD .new).KnowsAs q ∧
      ∃ patience, ∀ more,
        let report := fresh.machine.runFor (patience + more) q
        report.outcome = .value .null ∧ report.machine.globals = s'.machine.globals ∧
          report.machine.heap = s'.machine.heap ∧ report.output = output :=
  h.runFor_script (Native.heedless_standard out) hs hfree hentries hfresh

/-- Evaluates entries as long as each compiles to a top level without a return and ends with a
value. -/
def evaluated? (s : Session) : List String → Option (String × Session)
  | [] => some ("", s)
  | entry :: rest =>
    match s.compile entry with
    | .error _ => none
    | .ok p =>
      match (s.machine.run p).outcome with
      | .value _ =>
        if p.main?.all fun main => main.code.toList.all fun i => i.op ≠ .ret then
          (evaluated? { s with prelude? := some p, machine := (s.machine.run p).machine } rest).map
            fun (output, s') => ((s.machine.run p).output ++ output, s')
        else none
      | _ => none

theorem evaluates_of_evaluated? {s s' : Session} {entries : List String} {output : String}
    (h : s.evaluated? entries = some (output, s')) : s.Evaluates entries output s' := by
  induction entries generalizing s output with
  | nil =>
      cases h
      exact .nil _
  | cons entry rest ih =>
      unfold evaluated? at h
      cases hcompile : s.compile entry with
      | error e =>
          rw [hcompile] at h
          cases h
      | ok p =>
          rw [hcompile] at h
          dsimp only at h
          split at h
          · rename_i v hvalue
            split at h
            · rename_i hcode
              obtain ⟨⟨output', _⟩, hrest, hsame⟩ := Option.map_eq_some_iff.mp h
              cases hsame
              refine .cons hcompile (.of_code ⟨v, hvalue⟩ ?_) ?_ (ih hrest)
              · intro main hmain i hi
                rw [hmain, Option.all_some, List.all_eq_true] at hcode
                exact of_decide_eq_true (hcode i (Array.mem_toList_iff.mpr hi))
              · unfold eval
                rw [hcompile]
                rfl
            · cases h
          · cases h

/-- A variable of the first entry is there in the second one, as it is in the script of two
lines. -/
theorem runs_as_script_log :
    ∃ s s' q patience, Session.new Registry.standard { depth := 0 } = .ok s ∧
      s.Evaluates ["x = true", "log(x)"] "true\n" s' ∧
      s.compiler.compileSource "x = true\nlog(x)" = .ok q ∧
      (s.machine.runFor patience q).output = "true\n" := by
  have hcheck : ((Session.new Registry.standard { depth := 0 }).toOption.bind fun s =>
      s.evaluated? ["x = true", "log(x)"]).map (·.1) = some "true\n" := by
    decide +kernel
  obtain ⟨⟨_, s'⟩, hevaluated, rfl⟩ := Option.map_eq_some_iff.mp hcheck
  obtain ⟨s, hs, hevaluated⟩ := Option.bind_eq_some_iff.mp hevaluated
  have hnew : Session.new Registry.standard { depth := 0 } = .ok s := Registry.eq_ok_of_toOption hs
  have hevaluates := evaluates_of_evaluated? hevaluated
  obtain ⟨q, hcompile, -, patience, hruns⟩ := runs_as_script hnew ⟨by decide, by decide⟩ (by decide)
    hevaluates (new_eq_ok hnew).2
  obtain ⟨-, -, -, houtput⟩ := hruns 0
  exact ⟨s, s', q, patience + 0, hnew, hevaluates, hcompile, houtput⟩

end LineScript.Session
