/-
# A cache that nobody notices

With a cache, a service answers from stored bytes what it would otherwise compile. The bytes are
found under a digest, read back, and checked against signatures that were written out and read
again. Still every answer is the one a service without a cache gives, but for the remark that it
came from the cache, and that remark is made exactly for the scripts that were compiled before.

The invariant is that the cache holds what some compilations have put there, and nothing else. A
request whose script is among them finds the program it would have compiled; any other request
finds nothing and adds its own compilation.
-/

import LineScript.Proofs.CompiledCode
import LineScript.Proofs.Signatures
import LineScript.Proofs.WireRoundTrip
import LineScript.Service

namespace LineScript

open LineScript.Code

/-! ## Signatures that are read again -/

namespace Registry

/-- No name of a host function has an opening parenthesis. -/
def PlainNames (r : Registry) : Prop := ∀ e ∈ r.entries, '(' ∉ e.name.toList

instance (r : Registry) : Decidable r.PlainNames :=
  inferInstanceAs (Decidable (∀ e ∈ r.entries, '(' ∉ e.name.toList))

/-- The host functions of a compiler are entries, with the parameters that they declare. -/
theorem native_of_installCompiler {entries : List Entry} {c c' : Compiler}
    (h : installCompiler c entries = .ok c') {name : String} {params : List String}
    (hname : c'.natives.get? name = some params) :
    c.natives.get? name = some params ∨
      ∃ e ∈ entries, e.name = name ∧ Signature.parse e.signature = .ok params := by
  induction entries generalizing c with
  | nil =>
      cases h
      exact .inl hname
  | cons e rest ih =>
      obtain ⟨declared, -, hparse, h⟩ := installCompiler_cons_eq_ok h
      obtain hbefore | ⟨e', he', hfound⟩ := ih h
      · by_cases heq : name = e.name
        · subst heq
          rw [Dict.get?_insert_self] at hbefore
          cases hbefore
          exact .inr ⟨e, List.mem_cons_self, rfl, hparse⟩
        · rw [Dict.get?_insert_of_ne _ _ heq] at hbefore
          exact .inl hbefore
      · exact .inr ⟨e', List.mem_cons_of_mem _ he', hfound⟩

end Registry

namespace Compiler

/-- The host functions of a compiler can be read off its canonical signatures. -/
def Canonical (c : Compiler) : Prop :=
  ∀ e ∈ c.natives.entries, Signature.parse (Signature.render e.1 e.2) = .ok e.2

theorem canonical_of_registry {r : Registry} {c : Compiler} (h : r.compiler = .ok c)
    (hr : r.PlainNames) : c.Canonical := by
  rintro ⟨name, params⟩ he
  obtain hnone | ⟨e, hmem, rfl, hparse⟩ :=
    Registry.native_of_installCompiler h (Dict.get?_eq_some_iff.mpr he)
  · cases hnone
  · exact (Signature.areParameters_of_parse hparse).parse_render (hr e hmem)

theorem toList_signatures (c : Compiler) :
    c.signatures.toList = c.natives.entries.map fun e => (e.1, Signature.render e.1 e.2) := by
  have hascending : (c.natives.entries.map fun e => (e.1, Signature.render e.1 e.2)).Pairwise
      (fun a b => a.1 < b.1) := by
    rw [List.pairwise_map]
    exact c.natives.ascending
  have heq : c.signatures = ⟨_, hascending⟩ := Dict.ofList_of_perm (List.Perm.refl _)
  rw [heq]
  rfl

/-- The canonical signatures tell the parameter counts. -/
theorem Canonical.aritiesOf_signatures {c : Compiler} (h : c.Canonical) :
    ∃ arities, Registry.aritiesOf c.signatures.toList = .ok arities ∧
      Dict.ofList arities = c.arities := by
  have hlist : ∀ natives : List (String × List String),
      (∀ e ∈ natives, Signature.parse (Signature.render e.1 e.2) = .ok e.2) →
        Registry.aritiesOf (natives.map fun e => (e.1, Signature.render e.1 e.2)) =
          .ok (natives.map fun e => (e.1, e.2.length)) := by
    intro natives hnatives
    induction natives with
    | nil => rfl
    | cons e rest ih =>
        obtain ⟨he, hrest⟩ := List.forall_mem_cons.mp hnatives
        rw [List.map_cons, Registry.aritiesOf, he]
        dsimp only
        rw [ih hrest]
        rfl
  rw [toList_signatures]
  exact ⟨_, hlist _ h, Dict.ofList_of_perm (List.Perm.refl _)⟩

/-- The parameters that a signature declares, with its name. -/
def readBack (e : String × String) : String × List String :=
  (e.1, match Signature.parse e.2 with
    | .ok params => params
    | .error _ => [])

theorem Canonical.entries_eq {c : Compiler} (h : c.Canonical) :
    c.natives.entries = c.signatures.toList.map readBack := by
  rw [toList_signatures, List.map_map]
  conv => lhs; rw [← List.map_id c.natives.entries]
  refine List.map_congr_left fun e he => ?_
  rw [Function.comp_apply, readBack, h e he, id]

/-- Compilers with the same canonical signatures have the same host functions. -/
theorem Canonical.natives_eq {c c' : Compiler} (h : c.Canonical) (h' : c'.Canonical)
    (hsame : c.signatures = c'.signatures) : c.natives = c'.natives := by
  apply Dict.ext
  rw [h.entries_eq, h'.entries_eq, hsame]

/-- The compiler has the host functions of a registry, and nothing else. -/
def Installed (c : Compiler) : Prop := ∃ r : Registry, r.PlainNames ∧ r.compiler = .ok c

namespace Installed

variable {c c' : Compiler}

theorem canonical (h : c.Installed) : c.Canonical := by
  obtain ⟨r, hplain, hcompiler⟩ := h
  exact canonical_of_registry hcompiler hplain

theorem prelude?_eq_none (h : c.Installed) : c.prelude? = none := by
  obtain ⟨r, -, hcompiler⟩ := h
  exact Registry.prelude?_installCompiler hcompiler

/-- The canonical signatures determine the compiler. -/
theorem eq_of_signatures_eq (h : c.Installed) (h' : c'.Installed)
    (hsame : c.signatures = c'.signatures) : c = c' := by
  have hnatives := h.canonical.natives_eq h'.canonical hsame
  have hprelude := h.prelude?_eq_none.trans h'.prelude?_eq_none.symm
  cases c
  cases c'
  congr

end Installed

end Compiler

/-! ## Compilations and what they leave in a cache -/

/-- A compilation that succeeded: the script, the compiler and the program. -/
structure Compilation where
  source : String
  compiler : Compiler
  program : Program

namespace Compilation

/-- What was compiled: the script, and the signatures of the host functions. -/
def subject (k : Compilation) : String × Dict String := (k.source, k.compiler.signatures)

/-- The key its program is stored under. -/
def key (k : Compilation) : String := Cache.key k.source k.compiler.signatures

theorem key_of_subject {k : Compilation} {source : String} {natives : Dict String}
    (h : k.subject = (source, natives)) : k.key = Cache.key source natives := by
  obtain ⟨rfl, rfl⟩ := Prod.mk.inj h
  rfl

/-- The row its program is stored as. -/
def row (k : Compilation) : Cache.Row := ⟨Wire.formatVersion, Wire.encode k.program⟩

/-- The program is what the compiler of some registry makes of the script. -/
structure Genuine (k : Compilation) : Prop where
  installed : k.compiler.Installed
  compiled : k.compiler.compileSource k.source = .ok k.program

/-- What a compilation stores is read back, and passes the checks, as its program. -/
theorem Genuine.program?_row {k : Compilation} (h : k.Genuine)
    (hsource : k.source.utf8ByteSize + 1 < 2 ^ 63)
    (hlimited : k.program.Limited) :
    k.row.program? k.compiler.signatures = some (some k.program) := by
  have hnone := h.installed.prelude?_eq_none
  have hwritten : k.program.Written := by
    refine (Compiler.Produced.compiled (fun q hq => ?_) hsource h.compiled).written
    rw [hnone] at hq
    cases hq
  have hdecode : Wire.decode (Wire.encode k.program) = .ok k.program := by
    rw [Wire.decode_encode_stored (hwritten.storable hlimited) hlimited, hwritten.stored_eq]
  have hpasses : k.program.invalid? k.compiler.arities = none := by
    obtain ⟨tokens, b, hscan, hwords, hcompiles⟩ := Compiler.exists_tree h.compiled
    refine (hcompiles.checked hnone hwords fun t ht hkind => ?_).passes
    exact (((Token.proper_of_scan hscan).1 t ht).2 hkind).1
  obtain ⟨arities, hparse, harities⟩ := h.installed.canonical.aritiesOf_signatures
  unfold Cache.Row.program? row
  rw [if_neg (by simp), hdecode]
  dsimp only
  rw [hparse]
  dsimp only
  rw [harities, hpasses]
  rfl

end Compilation

namespace Cache

/-- The cache is open, and what it stores are the programs of the given compilations. -/
structure Holds (cache : Cache) (done : List Compilation) : Prop where
  isOpen : cache.isOpen = true
  genuine : ∀ k ∈ done, k.Genuine
  rows : ∀ key row, cache.rows.get? key = some row ↔ ∃ k ∈ done, k.key = key ∧ k.row = row

theorem put_of_isOpen {cache : Cache} (h : cache.isOpen = true) (source : String)
    (natives : Dict String) (p : Program) :
    cache.put source natives (some p) = .ok { cache with
      rows := cache.rows.insert (key source natives) ⟨Wire.formatVersion, Wire.encode p⟩ } := by
  simp only [put, plant, h, Bool.not_true, Bool.false_eq_true, if_false]

/-- An empty cache holds nothing. -/
theorem holds_empty : Holds {} [] := by
  refine ⟨rfl, List.forall_mem_nil _, fun key row => ?_⟩
  simp only [List.not_mem_nil, false_and, exists_false, iff_false]
  nofun

namespace Holds

variable {cache : Cache} {done : List Compilation} {k : Compilation}

/-- A compilation whose key is free adds its row. -/
theorem insert (h : cache.Holds done) (hk : k.Genuine) (hfree : cache.rows.get? k.key = none)
    (cache' : Cache) (hopen : cache'.isOpen = true)
    (hrows : cache'.rows = cache.rows.insert k.key k.row) : cache'.Holds (done ++ [k]) := by
  refine ⟨hopen, fun k' hk' => ?_, fun key row => ?_⟩
  · rcases List.mem_append.mp hk' with hk' | hk'
    · exact h.genuine k' hk'
    · rw [List.mem_singleton.mp hk']
      exact hk
  · rw [hrows]
    have hsplit : (∃ k' ∈ done ++ [k], k'.key = key ∧ k'.row = row) ↔
        (∃ k' ∈ done, k'.key = key ∧ k'.row = row) ∨ k.key = key ∧ k.row = row := by
      simp only [List.mem_append, List.mem_singleton, or_and_right, exists_or, exists_eq_left]
    rw [hsplit, ← h.rows]
    by_cases hkey : key = k.key
    · rw [hkey, hfree, Dict.get?_insert_self]
      simp
    · rw [Dict.get?_insert_of_ne _ _ hkey]
      simp [Ne.symm hkey]

/-- Counting a lookup, and compiling again what has been compiled, changes nothing. -/
theorem again (h : cache.Holds done) (cache' : Cache) (hopen : cache'.isOpen = cache.isOpen)
    (hrows : cache'.rows = cache.rows) {more : List Compilation} (hmore : ∀ k ∈ more, k ∈ done) :
    cache'.Holds (done ++ more) := by
  have hmem : ∀ k, k ∈ done ++ more ↔ k ∈ done := by
    intro k
    rw [List.mem_append]
    exact ⟨fun hk => hk.elim id (hmore k), .inl⟩
  refine ⟨hopen.trans h.isOpen, fun k hk => h.genuine k ((hmem k).mp hk), fun key row => ?_⟩
  rw [hrows, h.rows]
  simp only [hmem]

/-- Where nothing is stored, nothing was compiled, and the lookup only counts. -/
theorem get_of_free (h : cache.Holds done) {source : String} {natives : Dict String}
    (hfree : cache.rows.get? (key source natives) = none) :
    cache.get source natives = (.miss, { cache with misses := cache.misses + 1 }) ∧
      ¬∃ k ∈ done, k.subject = (source, natives) := by
  refine ⟨?_, ?_⟩
  · unfold get
    simp only [h.isOpen, Bool.not_true, Bool.false_eq_true, if_false, hfree]
  · rintro ⟨k, hk, hsubject⟩
    have hstored := (h.rows k.key k.row).mpr ⟨k, hk, rfl, rfl⟩
    rw [Compilation.key_of_subject hsubject, hfree] at hstored
    cases hstored

/-- What was compiled is found. -/
theorem get_of_mem (h : cache.Holds done) (hk : k ∈ done)
    (hsource : k.source.utf8ByteSize + 1 < 2 ^ 63) (hlimited : k.program.Limited)
    (hrow : cache.rows.get? k.key = some k.row) :
    cache.get k.source k.compiler.signatures =
      (.hit k.program, { cache with hits := cache.hits + 1 }) := by
  have hread := (h.genuine k hk).program?_row hsource hlimited
  unfold get
  rw [show Cache.key k.source k.compiler.signatures = k.key from rfl]
  simp only [h.isOpen, Bool.not_true, Bool.false_eq_true, if_false, hrow, hread]

end Holds

end Cache

namespace Service

open LineScript.Machine

/-! ## One request -/

/-- The same service without its cache. -/
def uncached (s : Service) : Service := { s with cache? := none }

/-- The answer to any request. -/
inductive Answer where
  | compiled (answer : Except Refusal Compiled)
  | checked (answer : Except Refusal Checked)
  | ran (answer : Except Refusal Ran)

/-- The answer without the remark whether the program came from the cache. -/
def Answer.plain : Answer → Answer
  | .compiled (.ok (.success p _)) => .compiled (.ok (.success p false))
  | answer => answer

/-- A request and what it asks for. -/
abbrev Query := Procedure × Request

/-- Answers a request. -/
def respond (s : Service) (q : Query) : Answer × Service :=
  match q.1 with
  | .compile => let (answer, s) := s.compile q.2.source; (.compiled answer, s)
  | .check => let (answer, s) := s.check q.2.source; (.checked answer, s)
  | .run => let (answer, s) := s.run q.2.source q.2.maxSteps; (.ran answer, s)

/-- The service after a sequence of requests. -/
def after (s : Service) (queries : List Query) : Service :=
  queries.foldl (fun s q => (s.respond q).2) s

/-- Whether a request is taken up, so that its script gets compiled. -/
def takes (s : Service) (q : Query) : Bool :=
  q.2.source ≠ "" && (q.1 ≠ .run || (0 ≤ q.2.maxSteps && s.running))

/-- The compilation that a request asks for, if there is one. -/
def compilation? (s : Service) (q : Query) : Option Compilation :=
  if s.takes q then
    match s.registry.compiler with
    | .error _ => none
    | .ok c => (c.compileSource q.2.source).toOption.map (⟨q.2.source, c, ·⟩)
  else none

/-- What a request has looked up: its script, with the signatures of the host functions. -/
def subjects (s : Service) (q : Query) : List (String × Dict String) :=
  match s.registry.compiler with
  | .error _ => []
  | .ok c => [(q.2.source, c.signatures)]

/-- The step limit of the machine that a request is given. -/
def stepsFor (s : Service) (q : Query) : Int :=
  match q.1 with
  | .run => s.stepLimit q.2.maxSteps
  | _ => s.limits.steps

/-- The answer once it is known what became of the script. -/
def answerWith (host : Host) (procedure : Procedure) :
    Except CompileError (Program × Bool) → Answer
  | .error e =>
    match procedure with
    | .compile => .compiled (.ok (.failure (.ofCompileError e)))
    | .check => .checked (.ok ⟨some (.ofCompileError e)⟩)
    | .run => .ran (.ok (.failed (.ofCompileError e)))
  | .ok (p, cached) =>
    match procedure with
    | .compile => .compiled (.ok (.success p cached))
    | .check => .checked (.ok ⟨none⟩)
    | .run => .ran (.ok (ranOf (host.machine.run p)))

theorem plain_answerWith (host : Host) (procedure : Procedure) (r : Except CompileError Program)
    (cached : Bool) :
    (answerWith host procedure (r.map (·, cached))).plain =
      answerWith host procedure (r.map (·, false)) := by
  cases r <;> cases procedure <;> rfl

theorem of_answerWith {host : Host} {procedure : Procedure} {r : Except CompileError Program}
    {cached cached' : Bool} {p : Program}
    (h : answerWith host procedure (r.map (·, cached)) = .compiled (.ok (.success p cached'))) :
    r = .ok p ∧ cached = cached' := by
  cases r <;> cases procedure <;> cases h
  exact ⟨rfl, rfl⟩

theorem refused_or_takes (s : Service) (q : Query) :
    (s.takes q = false ∨ ∃ e, s.registry.compiler = .error e) ∨
      s.takes q = true ∧ ∃ c, s.registry.compiler = .ok c := by
  cases s.takes q with
  | false => exact .inl (.inl rfl)
  | true =>
      cases s.registry.compiler with
      | error e => exact .inl (.inr ⟨e, rfl⟩)
      | ok c => exact .inr ⟨rfl, c, rfl⟩

/-- A request that is taken up is answered from what became of its script. -/
theorem respond_of_takes {s : Service} {q : Query} {host : Host} (htakes : s.takes q = true)
    (hhost : s.host (s.stepsFor q) = .ok host) :
    s.respond q = (answerWith host q.1 (s.obtain host.compiler q.2.source).1,
      (s.obtain host.compiler q.2.source).2) := by
  obtain ⟨procedure, request⟩ := q
  simp only [takes, ne_eq, decide_not, Bool.and_eq_true, Bool.not_eq_true', decide_eq_false_iff_not,
    Bool.or_eq_true, decide_eq_true_eq] at htakes
  obtain ⟨hsource, htakes⟩ := htakes
  cases procedure with
  | compile =>
      have hhost : s.host s.limits.steps = .ok host := hhost
      simp only [respond, compile, if_neg hsource, hhost]
      rcases s.obtain host.compiler request.source with ⟨_ | ⟨p, cached⟩, s'⟩ <;> rfl
  | check =>
      have hhost : s.host s.limits.steps = .ok host := hhost
      simp only [respond, check, if_neg hsource, hhost]
      rcases s.obtain host.compiler request.source with ⟨_ | ⟨p, cached⟩, s'⟩ <;> rfl
  | run =>
      have hhost : s.host (s.stepLimit request.maxSteps) = .ok host := hhost
      obtain ⟨hsteps, hrunning⟩ := htakes.resolve_left (by simp)
      simp only [respond, run, if_neg hsource, if_neg (Int.not_lt.mpr hsteps), hrunning,
        Bool.not_true, Bool.false_eq_true, if_false, hhost]
      rcases s.obtain host.compiler request.source with ⟨_ | ⟨p, cached⟩, s'⟩ <;> rfl

theorem host_of_compiler_error {s : Service} {e : InstallError} (h : s.registry.compiler = .error e)
    (steps : Int) : s.host steps = .error e := by
  unfold host Registry.host
  rw [h]
  rfl

/-- A request that is turned down, or that finds no host, has nothing to do with the cache. -/
theorem respond_of_refused {s : Service} {q : Query}
    (h : s.takes q = false ∨ ∃ e, s.registry.compiler = .error e) :
    ∃ answer : Answer, answer.plain = answer ∧
      ∀ s' : Service, s'.uncached = s.uncached → s'.respond q = (answer, s') := by
  obtain ⟨procedure, ⟨source, maxSteps⟩⟩ := q
  have hhost : ∀ e, s.registry.compiler = .error e → ∀ s' : Service, s'.uncached = s.uncached →
      ∀ steps, s'.host steps = .error e := by
    intro e he s' hs' steps
    exact host_of_compiler_error ((congrArg (·.registry.compiler) hs').trans he) steps
  by_cases hsource : source = ""
  · cases procedure with
    | compile =>
        exact ⟨.compiled (.error .noSource), rfl, fun _ _ => by simp [respond, compile, hsource]⟩
    | check => exact ⟨.checked (.error .noSource), rfl, fun _ _ => by simp [respond, check, hsource]⟩
    | run => exact ⟨.ran (.error .noSource), rfl, fun _ _ => by simp [respond, run, hsource]⟩
  cases procedure with
  | compile =>
      obtain ⟨e, he⟩ := h.resolve_left (by simp [takes, hsource])
      refine ⟨.compiled (.error (.host e)), rfl, fun s' hs' => ?_⟩
      simp only [respond, compile, if_neg hsource, hhost e he s' hs']
  | check =>
      obtain ⟨e, he⟩ := h.resolve_left (by simp [takes, hsource])
      refine ⟨.checked (.error (.host e)), rfl, fun s' hs' => ?_⟩
      simp only [respond, check, if_neg hsource, hhost e he s' hs']
  | run =>
      have hrunning : ∀ s' : Service, s'.uncached = s.uncached → s'.running = s.running :=
        fun s' hs' => congrArg (·.running) hs'
      by_cases hsteps : maxSteps < 0
      · exact ⟨.ran (.error .negativeSteps), rfl, fun _ _ => by simp [respond, run, hsource, hsteps]⟩
      by_cases hgoing : s.running = true
      · obtain ⟨e, he⟩ := h.resolve_left (by simp [takes, hsource, hgoing, Int.not_lt.mp hsteps])
        refine ⟨.ran (.ok (.failed (.ofInstallError e))), rfl, fun s' hs' => ?_⟩
        simp only [respond, run, if_neg hsource, if_neg hsteps, hrunning s' hs', hgoing,
          Bool.not_true, Bool.false_eq_true, if_false, hhost e he s' hs']
      · refine ⟨.ran (.ok (.failed { message := stoppedMessage })), rfl, fun s' hs' => ?_⟩
        simp [respond, run, hsource, hsteps, hrunning s' hs', hgoing]

theorem bindAll_of_installCompiler {entries : List Entry} {c c' : Compiler}
    (h : Registry.installCompiler c entries = .ok c') (m : Machine) :
    (Registry.bindAll m entries).2 = none := by
  induction entries generalizing c m with
  | nil => rfl
  | cons e rest ih =>
      obtain ⟨params, -, hparse, h⟩ := Registry.installCompiler_cons_eq_ok h
      rw [Registry.bindAll, hparse]
      exact ih h _

/-- Whoever has a compiler has a host. -/
theorem exists_host {s : Service} {c : Compiler} (h : s.registry.compiler = .ok c) (steps : Int) :
    ∃ m, s.host steps = .ok ⟨c, m⟩ := by
  have hbind := bindAll_of_installCompiler h { limits := { s.limits with steps := steps } }
  have hmachine : ∃ m, s.registry.machine { limits := { s.limits with steps := steps } } = .ok m := by
    unfold Registry.machine
    split
    · exact ⟨_, rfl⟩
    · rename_i hfailed
      rw [hfailed] at hbind
      cases hbind
  obtain ⟨m, hm⟩ := hmachine
  refine ⟨m, ?_⟩
  unfold host Registry.host
  rw [h]
  change (s.registry.machine _ >>= fun m => _) = _
  rw [hm]
  rfl

/-! ## The step -/

/-- No two of the things that are looked up have one key. -/
def Apart (subjects : List (String × Dict String)) : Prop :=
  ∀ a ∈ subjects, ∀ b ∈ subjects, Cache.key a.1 a.2 = Cache.key b.1 b.2 → a = b

theorem Apart.mono {subjects subjects' : List (String × Dict String)} (h : Apart subjects)
    (hsub : subjects' ⊆ subjects) : Apart subjects' :=
  fun a ha b hb => h a (hsub ha) b (hsub hb)

/-- With a cache that holds earlier compilations the program is the one that would be compiled. It
comes from the cache if the same was compiled before, and is in the cache afterwards. -/
theorem obtain_of_holds {s : Service} {cache : Cache} {done : List Compilation} {c : Compiler}
    {source : String} (hcache : s.cache? = some cache) (hholds : cache.Holds done)
    (hinstalled : c.Installed)
    (hsource : source.utf8ByteSize + 1 < 2 ^ 63)
    (hlimited : ∀ p, c.compileSource source = .ok p → p.Limited)
    (hapart : Apart (done.map (·.subject) ++ [(source, c.signatures)])) :
    ∃ cache' cached,
      s.obtain c source =
        ((c.compileSource source).map (·, cached), { s with cache? := some cache' }) ∧
      cache'.Holds (done ++ ((c.compileSource source).toOption.map (⟨source, c, ·⟩)).toList) ∧
      (cached = true ↔ ∃ k ∈ done, k.subject = (source, c.signatures)) := by
  cases hrow : cache.rows.get? (Cache.key source c.signatures) with
  | none =>
      obtain ⟨hget, hfresh⟩ := hholds.get_of_free hrow
      unfold obtain
      rw [hcache]
      dsimp only
      rw [hget]
      dsimp only
      cases hcompile : c.compileSource source with
      | error e =>
          have hsame := hholds.again { cache with misses := cache.misses + 1 } rfl rfl
            (List.forall_mem_nil _)
          exact ⟨_, false, rfl, hsame, by simpa using hfresh⟩
      | ok p =>
          have hmissed : Cache.isOpen { cache with misses := cache.misses + 1 } = true := hholds.isOpen
          have hgenuine : Compilation.Genuine ⟨source, c, p⟩ := ⟨hinstalled, hcompile⟩
          have hadded := hholds.insert hgenuine hrow
            ⟨cache.rows.insert _ _, cache.hits, cache.misses + 1, cache.isOpen⟩ hholds.isOpen rfl
          have hput := Cache.put_of_isOpen hmissed source c.signatures p
          dsimp only
          rw [hput]
          exact ⟨_, false, rfl, hadded, by simpa using hfresh⟩
  | some row =>
      obtain ⟨k, hk, hkey, rfl⟩ := (hholds.rows _ _).mp hrow
      have hsubject : k.subject = (source, c.signatures) := by
        refine hapart _ ?_ _ ?_ hkey
        · exact List.mem_append_left _ (List.mem_map_of_mem hk)
        · exact List.mem_append_right _ (List.mem_singleton_self _)
      obtain ⟨rfl, hsignatures⟩ := Prod.mk.inj hsubject
      have hgenuine := hholds.genuine k hk
      obtain rfl := hgenuine.installed.eq_of_signatures_eq hinstalled hsignatures
      have hget := hholds.get_of_mem hk hsource (hlimited _ hgenuine.compiled) hrow
      have hsame := hholds.again { cache with hits := cache.hits + 1 } rfl rfl
        (List.forall_mem_singleton.mpr hk)
      unfold obtain
      rw [hcache, hgenuine.compiled]
      dsimp only
      rw [hget]
      exact ⟨_, true, rfl, hsame, iff_of_true rfl ⟨k, hk, hsubject⟩⟩

theorem compilation?_of_takes {s : Service} {q : Query} {c : Compiler} (htakes : s.takes q = true)
    (hc : s.registry.compiler = .ok c) :
    s.compilation? q = (c.compileSource q.2.source).toOption.map (⟨q.2.source, c, ·⟩) := by
  rw [compilation?, if_pos htakes, hc]

theorem compilation?_of_refused {s : Service} {q : Query}
    (h : s.takes q = false ∨ ∃ e, s.registry.compiler = .error e) : s.compilation? q = none := by
  obtain h | ⟨e, he⟩ := h
  · rw [compilation?, if_neg (by simp [h])]
  · rw [compilation?, he]
    split <;> rfl

theorem eq_of_mem_subjects {s : Service} {q : Query} {a b : String × Dict String}
    (ha : a ∈ s.subjects q) (hb : b ∈ s.subjects q) : a = b := by
  unfold subjects at ha hb
  cases hc : s.registry.compiler with
  | error e =>
      rw [hc] at ha
      cases ha
  | ok c =>
      rw [hc] at ha hb
      rw [List.mem_singleton.mp ha, List.mem_singleton.mp hb]

theorem subject_of_compilation? {s : Service} {q : Query} {k : Compilation}
    (h : s.compilation? q = some k) : k.subject ∈ s.subjects q := by
  unfold compilation? at h
  unfold subjects
  split at h
  · cases hc : s.registry.compiler with
    | error e =>
        rw [hc] at h
        cases h
    | ok c =>
        rw [hc] at h
        obtain ⟨p, -, rfl⟩ := Option.map_eq_some_iff.mp h
        exact List.mem_singleton_self _
  · cases h

/-- One request: the cache comes to hold what was compiled for it, the answer is that of the service
without a cache, and it is marked if the same was compiled before. -/
theorem respond_of_holds {s : Service} {cache : Cache} {done : List Compilation} {q : Query}
    (hcache : s.cache? = some cache) (hholds : cache.Holds done) (hnames : s.registry.PlainNames)
    (hsource : q.2.source.utf8ByteSize + 1 < 2 ^ 63)
    (hlimited : ∀ k, s.compilation? q = some k → k.program.Limited)
    (hapart : Apart (done.map (·.subject) ++ s.subjects q)) :
    (∃ cache', (s.respond q).2 = { s with cache? := some cache' } ∧
      cache'.Holds (done ++ (s.compilation? q).toList)) ∧
    (s.respond q).1.plain = (s.uncached.respond q).1 ∧
    ∀ p cached, (s.respond q).1 = .compiled (.ok (.success p cached)) →
      (cached = true ↔ ∃ k ∈ done, ∃ k', s.compilation? q = some k' ∧ k.subject = k'.subject) := by
  obtain hrefused | ⟨htakes, c, hc⟩ := s.refused_or_takes q
  · obtain ⟨answer, hplain, hanswer⟩ := respond_of_refused hrefused
    rw [hanswer s rfl, hanswer s.uncached rfl, compilation?_of_refused hrefused]
    refine ⟨⟨cache, by rw [← hcache], by simpa using hholds⟩, hplain, ?_⟩
    rintro p cached rfl
    obtain rfl : cached = false := by simpa [Answer.plain] using hplain.symm
    simp
  · obtain ⟨m, hhost⟩ := exists_host hc (s.stepsFor q)
    rw [compilation?_of_takes htakes hc] at hlimited ⊢
    rw [subjects, hc] at hapart
    obtain ⟨cache', cached, hobtain, hholds', hflag⟩ := obtain_of_holds hcache hholds
      ⟨s.registry, hnames, hc⟩ hsource (fun p hp => hlimited _ (by rw [hp]; rfl)) hapart
    have hrespond := respond_of_takes htakes hhost
    have huncached := respond_of_takes (s := s.uncached) htakes hhost
    rw [hrespond, huncached, hobtain]
    refine ⟨⟨cache', rfl, hholds'⟩, plain_answerWith _ _ _ _, ?_⟩
    intro p cached' hanswer
    obtain ⟨hcompile, rfl⟩ := of_answerWith hanswer
    rw [hflag, hcompile]
    simp [Except.toOption, Compilation.subject]

theorem after_nil (s : Service) : s.after [] = s := rfl

theorem after_cons (s : Service) (q : Query) (queries : List Query) :
    s.after (q :: queries) = (s.respond q).2.after queries := rfl

/-! ## All requests -/

/-- After any requests the cache holds, beside what it held, the compilations they asked for. -/
theorem holds_after {s : Service} {cache : Cache} {done : List Compilation} {queries : List Query}
    (hcache : s.cache? = some cache) (hholds : cache.Holds done) (hnames : s.registry.PlainNames)
    (hsource : ∀ q ∈ queries, q.2.source.utf8ByteSize + 1 < 2 ^ 63)
    (hlimited : ∀ q ∈ queries, ∀ k, s.compilation? q = some k → k.program.Limited)
    (hapart : Apart (done.map (·.subject) ++ queries.flatMap s.subjects)) :
    ∃ cache', s.after queries = { s with cache? := some cache' } ∧
      cache'.Holds (done ++ queries.filterMap s.compilation?) := by
  induction queries generalizing s cache done with
  | nil => exact ⟨cache, by rw [after_nil, ← hcache], by simpa using hholds⟩
  | cons q rest ih =>
      obtain ⟨hsource, hsources⟩ := List.forall_mem_cons.mp hsource
      obtain ⟨hlimited, hlimiteds⟩ := List.forall_mem_cons.mp hlimited
      have hfirst : Apart (done.map (·.subject) ++ s.subjects q) := by
        refine hapart.mono (List.append_subset.mpr ⟨List.subset_append_left _ _, ?_⟩)
        rw [List.flatMap_cons]
        exact List.Subset.trans (List.subset_append_left _ _) (List.subset_append_right _ _)
      obtain ⟨⟨cache₁, hs₁, hholds₁⟩, -⟩ :=
        respond_of_holds hcache hholds hnames hsource hlimited hfirst
      -- What the request compiles is among what it looks up.
      have hrest : Apart ((done ++ (s.compilation? q).toList).map (·.subject) ++
          rest.flatMap s.subjects) := by
        refine hapart.mono ?_
        rw [List.map_append, List.append_assoc, List.flatMap_cons]
        refine List.append_subset.mpr ⟨List.subset_append_left _ _, ?_⟩
        refine List.Subset.trans (List.append_subset.mpr ⟨fun a ha => ?_, List.subset_append_right _ _⟩)
          (List.subset_append_right _ _)
        obtain ⟨k, hk, rfl⟩ := List.mem_map.mp ha
        exact List.mem_append_left _ (subject_of_compilation? (Option.mem_toList.mp hk))
      obtain ⟨cache', hs', hholds'⟩ := ih (s := { s with cache? := some cache₁ }) rfl hholds₁ hnames
        hsources hlimiteds hrest
      refine ⟨cache', by rw [after_cons, hs₁, hs'], ?_⟩
      have hlist : (q :: rest).filterMap s.compilation? =
          (s.compilation? q).toList ++ rest.filterMap s.compilation? := by
        rw [List.filterMap_cons]
        cases s.compilation? q <;> rfl
      rw [hlist, ← List.append_assoc]
      exact hholds'

/-- A service without a cache learns nothing. -/
theorem after_uncached (s : Service) (queries : List Query) :
    s.uncached.after queries = s.uncached := by
  induction queries with
  | nil => rfl
  | cons q rest ih =>
      have hsame : (s.uncached.respond q).2 = s.uncached := by
        obtain hrefused | ⟨htakes, c, hc⟩ := s.refused_or_takes q
        · obtain ⟨answer, -, hanswer⟩ := respond_of_refused hrefused
          rw [hanswer s.uncached rfl]
        · obtain ⟨m, hhost⟩ := exists_host hc (s.stepsFor q)
          rw [respond_of_takes (s := s.uncached) htakes hhost]
          rfl
      rw [after_cons, hsame, ih]

/-- Caching is invisible. Take any service with a cache that holds what some compilations have left
there, if anything, and any requests one after the other. The next request is answered as by the
service without a cache after the same requests, but for the remark that the program came from the
cache; and the program is said to have come from there exactly if the same script was compiled before
with the same signatures. It is assumed that no two of the things looked up have one digest, that
scripts are no longer than a text can be, and that no list or map of a program is longer than
the reader allows. -/
theorem caching_invisible {s : Service} {cache : Cache} {done : List Compilation}
    (hcache : s.cache? = some cache) (hholds : cache.Holds done) (hnames : s.registry.PlainNames)
    {before : List Query} {next : Query}
    (hsource : ∀ q ∈ before ++ [next], q.2.source.utf8ByteSize + 1 < 2 ^ 63)
    (hlimited : ∀ q ∈ before ++ [next], ∀ k, s.compilation? q = some k → k.program.Limited)
    (hapart : Apart (done.map (·.subject) ++ (before ++ [next]).flatMap s.subjects)) :
    ((s.after before).respond next).1.plain = ((s.uncached.after before).respond next).1 ∧
    ∀ p cached, ((s.after before).respond next).1 = .compiled (.ok (.success p cached)) →
      (cached = true ↔ ∃ earlier ∈ done ++ before.filterMap s.compilation?,
        ∃ k, s.compilation? next = some k ∧ earlier.subject = k.subject) := by
  obtain ⟨hsource, hsourceNext⟩ := List.forall_mem_append.mp hsource
  obtain ⟨hlimited, hlimitedNext⟩ := List.forall_mem_append.mp hlimited
  rw [List.flatMap_append, ← List.append_assoc] at hapart
  obtain ⟨cache', hs', hholds'⟩ := holds_after hcache hholds hnames hsource hlimited
    (hapart.mono (List.subset_append_left _ _))
  have hnext : Apart ((done ++ before.filterMap s.compilation?).map (·.subject) ++
      s.subjects next) := by
    refine hapart.mono (List.append_subset.mpr ⟨?_, ?_⟩)
    · rw [List.map_append]
      refine List.Subset.trans (List.append_subset.mpr ⟨List.subset_append_left _ _, ?_⟩)
        (List.subset_append_left _ _)
      intro a ha
      obtain ⟨k, hk, rfl⟩ := List.mem_map.mp ha
      obtain ⟨q, hq, hqk⟩ := List.mem_filterMap.mp hk
      exact List.mem_append_right _ (List.mem_flatMap.mpr ⟨q, hq, subject_of_compilation? hqk⟩)
    · rw [List.flatMap_singleton]
      exact List.subset_append_right _ _
  obtain ⟨-, hplain, hflag⟩ := respond_of_holds (s := { s with cache? := some cache' }) rfl hholds' hnames
    (hsourceNext next (List.mem_singleton_self _)) (hlimitedNext next (List.mem_singleton_self _))
    hnext
  rw [hs', after_uncached]
  exact ⟨hplain, hflag⟩

/-- The same script twice, with a cache that is empty at first: the second program is said to have
come from the cache. -/
theorem caching_invisible_twice :
    let s : Service := { cache? := some {} }
    let q : Query := (.compile, { source := "log(true)" })
    ((s.after [q]).respond q).1.plain = ((s.uncached.after [q]).respond q).1 ∧
    ∀ p cached, ((s.after [q]).respond q).1 = .compiled (.ok (.success p cached)) →
      (cached = true ↔ ∃ earlier ∈ [] ++ [q].filterMap s.compilation?,
        ∃ k, s.compilation? q = some k ∧ earlier.subject = k.subject) := by
  intro s q
  have htwo : ∀ r ∈ [q] ++ [q], r = q := by simp
  have hsmall : (s.compilation? q).all (fun k => decide k.program.Limited) = true := by
    decide +kernel
  refine caching_invisible rfl Cache.holds_empty (by decide) ?_ ?_ ?_
  · intro r hr
    rw [htwo r hr]
    decide
  · intro r hr k hk
    rw [htwo r hr] at hk
    rw [hk] at hsmall
    exact of_decide_eq_true hsmall
  · have hone : ∀ a ∈ ([] : List Compilation).map (·.subject) ++ ([q] ++ [q]).flatMap s.subjects,
        a ∈ s.subjects q := by simp
    exact fun a ha b hb _ => eq_of_mem_subjects (hone a ha) (hone b hb)

end Service

end LineScript
