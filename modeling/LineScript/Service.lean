/-
# The compile service

Scripts compiled, checked and run for others. Every request gets a host of its own, so that requests
cannot see each other; programs that have been compiled before come from the cache, if there is one.
-/

import LineScript.Cache
import LineScript.Service.Address
import LineScript.Service.Message

namespace LineScript

open LineScript.Code

/-- A compile service. -/
structure Service where
  /-- The host functions of every request. -/
  registry : Registry := .standard
  limits : Machine.Limits := { steps := 10000000 }
  cache? : Option Cache := none
  /-- Whether runs are still taken on. -/
  running : Bool := true

namespace Service

/-- The program of a script, whether it came from the cache, and the service with what it has learnt.
A cache that fails is as good as none. -/
def obtain (s : Service) (c : Compiler) (source : String) :
    Except CompileError (Program × Bool) × Service :=
  match s.cache? with
  | none => ((c.compileSource source).map (·, false), s)
  | some cache =>
    match cache.get source c.signatures with
    | (.hit p, cache) => (.ok (p, true), { s with cache? := some cache })
    | (_, cache) =>
      match c.compileSource source with
      | .error e => (.error e, { s with cache? := some cache })
      | .ok p =>
        let cache := match cache.put source c.signatures (some p) with
          | .ok cache => cache
          | .error _ => cache
        (.ok (p, false), { s with cache? := some cache })

/-- The host of one request. -/
def host (s : Service) (steps : Int) : Except InstallError Host :=
  s.registry.host { s.limits with steps := steps }

/-- Compiles a script. -/
def compile (s : Service) (source : String) : Except Refusal Compiled × Service :=
  if source = "" then (.error .noSource, s)
  else
    match s.host s.limits.steps with
    | .error cause => (.error (.host cause), s)
    | .ok host =>
      match s.obtain host.compiler source with
      | (.error e, s) => (.ok (.failure (.ofCompileError e)), s)
      | (.ok (p, cached), s) => (.ok (.success p cached), s)

/-- Checks a script. -/
def check (s : Service) (source : String) : Except Refusal Checked × Service :=
  if source = "" then (.error .noSource, s)
  else
    match s.host s.limits.steps with
    | .error cause => (.error (.host cause), s)
    | .ok host =>
      match s.obtain host.compiler source with
      | (.error e, s) => (.ok ⟨some (.ofCompileError e)⟩, s)
      | (.ok _, s) => (.ok ⟨none⟩, s)

/-- The step limit of a run: that of the service, unless the request asks for a lower one. -/
def stepLimit (s : Service) (requested : Int) : Int :=
  if 0 < requested && (s.limits.steps = 0 || requested < s.limits.steps) then requested
  else s.limits.steps

/-- The wording of a run that is no longer taken on. -/
def stoppedMessage : String := "worker pool stopped"

/-- The answer to a finished run. A breakdown of the host loses everything but its own words. -/
def ranOf (r : Machine.Report) : Ran :=
  let ran : Ran := { output := r.output, steps := r.machine.steps }
  match r.outcome with
  | .value v => { ran with result? := some (r.machine.heap.repr v) }
  | .failed e => { ran with problem? := some (.ofRuntimeError e) }
  | .noTopLevel => { ran with problem? := some { message := Machine.noTopLevelMessage } }
  | .breakdown detail => .failed { message := detail }
  | .unfinished => ran

/-- Runs a script. -/
def run (s : Service) (source : String) (maxSteps : Int) : Except Refusal Ran × Service :=
  if source = "" then (.error .noSource, s)
  else if maxSteps < 0 then (.error .negativeSteps, s)
  else if !s.running then (.ok (.failed { message := stoppedMessage }), s)
  else
    match s.host (s.stepLimit maxSteps) with
    | .error cause => (.ok (.failed (.ofInstallError cause)), s)
    | .ok host =>
      match s.obtain host.compiler source with
      | (.error e, s) => (.ok (.failed (.ofCompileError e)), s)
      | (.ok (p, _), s) => (.ok (ranOf (host.machine.run p)), s)

/-- Takes on no more runs. -/
def stop (s : Service) : Service := { s with running := false }

/-- Closes the cache. -/
def closeCache (s : Service) : Service := { s with cache? := s.cache?.map Cache.close }

/-! ## Over the web -/

/-- What a web request asks for. -/
inductive Procedure where
  | compile
  | check
  | run
  deriving DecidableEq, Repr

/-- Where a procedure is found. -/
def Procedure.path : Procedure → String
  | compile => "/luiggi.v1.CompilerService/Compile"
  | check => "/luiggi.v1.CompilerService/Check"
  | run => "/luiggi.v1.CompilerService/Run"

/-- The procedure at a path. -/
def Procedure.ofPath? (path : String) : Option Procedure :=
  [compile, check, run].find? (·.path = path)

/-- The status of an answer. -/
def statusOf {α : Type} : Except Refusal α → Nat
  | .ok _ => 200
  | .error refusal => refusal.status

/-- The status of a call of a procedure. -/
def call (s : Service) (procedure : Procedure) (body : String) : Nat × Service :=
  match Request.read? (procedure = .run) body with
  | none => (400, s)
  | some request =>
    match procedure with
    | .compile => let (a, s) := s.compile request.source; (statusOf a, s)
    | .check => let (a, s) := s.check request.source; (statusOf a, s)
    | .run => let (a, s) := s.run request.source request.maxSteps; (statusOf a, s)

/-- The status of a web request, or nothing if no request can be made of the method and the address. A
path that is not clean is sent elsewhere, unless only a connection is asked for. -/
def http (s : Service) (method address body : String) : Option (Nat × Service) :=
  if address = "*" then if method.toList.all isMethodChar then some (400, s) else none
  else
    (requestPath? method address).map fun path =>
      if method ≠ "CONNECT" && cleanPath path ≠ path then (301, s)
      else
        match Procedure.ofPath? path with
        | none => (404, s)
        | some procedure => if method ≠ "POST" then (405, s) else s.call procedure body

end Service

end LineScript
