/-
# Arities that agree

How many arguments a host function takes is worked out in several places: by the compiler, from the
signature of the entry; by the machine, from the same text; in the table of the registry; and by the
cache, from the canonical signature that the compiler writes out. The machine takes as many values off
the stack as it was told, without a look at what the compiler counted, so all of them have to agree.

They do, since an installation imports every entry once, under a name of its own, and what the canonical
form is read as are the parameters it was made of. An opening parenthesis in a name spoils this: what is
read then begins inside the name.
-/

import LineScript.Proofs.CachedService
import LineScript.Proofs.Sessions

namespace LineScript

open LineScript.Code

/-! ## Canonical signatures -/

/-- What a signature declares, in the canonical form under a name. -/
def Signature.canonical (name signature : String) : Except Malformed String :=
  (parse signature).map (render name)

/-- The canonical form of a canonical signature is that signature. -/
theorem Signature.canonical_of_canonical {name signature text : String}
    (hname : '(' ∉ name.toList) (h : canonical name signature = .ok text) :
    canonical name text = .ok text := by
  unfold canonical at h
  cases hparse : parse signature with
  | error cause =>
      rw [hparse] at h
      cases h
  | ok params =>
      rw [hparse] at h
      cases h
      unfold canonical
      rw [(areParameters_of_parse hparse).parse_render hname]
      rfl

/-! ## What an installation leaves behind -/

namespace Registry

/-- A host function that is known stays what it is while others are imported. -/
theorem kept_of_installCompiler {entries : List Entry} {c c' : Compiler}
    (h : installCompiler c entries = .ok c') {name : String} {params : List String}
    (hname : c.natives.get? name = some params) : c'.natives.get? name = some params := by
  induction entries generalizing c with
  | nil =>
      cases h
      exact hname
  | cons e rest ih =>
      obtain ⟨declared, hnew, -, h⟩ := installCompiler_cons_eq_ok h
      refine ih h ((Dict.get?_insert_of_ne _ _ ?_).trans hname)
      rintro rfl
      rw [hnew] at hname
      cases hname

/-- Every entry is imported with the parameters that its signature declares, under a name that was not
known before. -/
theorem imported_of_installCompiler {entries : List Entry} {c c' : Compiler}
    (h : installCompiler c entries = .ok c') :
    ∀ e ∈ entries, c.natives.get? e.name = none ∧
      ∃ params, Signature.parse e.signature = .ok params ∧ c'.natives.get? e.name = some params := by
  induction entries generalizing c with
  | nil => exact List.forall_mem_nil _
  | cons e rest ih =>
      obtain ⟨params, hnew, hparse, h⟩ := installCompiler_cons_eq_ok h
      refine List.forall_mem_cons.mpr ⟨⟨hnew, params, hparse, ?_⟩, fun e' he' => ?_⟩
      · exact kept_of_installCompiler h (Dict.get?_insert_self _ _ _)
      · obtain ⟨hfresh, hfound⟩ := ih h e' he'
        have hne : e'.name ≠ e.name := by
          intro heq
          rw [heq, Dict.get?_insert_self] at hfresh
          cases hfresh
        rw [Dict.get?_insert_of_ne _ _ hne] at hfresh
        exact ⟨hfresh, hfound⟩

theorem nodup_of_installCompiler {entries : List Entry} {c c' : Compiler}
    (h : installCompiler c entries = .ok c') : (entries.map (·.name)).Nodup := by
  induction entries generalizing c with
  | nil => exact List.nodup_nil
  | cons e rest ih =>
      obtain ⟨params, -, -, h⟩ := installCompiler_cons_eq_ok h
      refine List.nodup_cons.mpr ⟨fun hmem => ?_, ih h⟩
      -- A second entry of the same name would have been refused.
      obtain ⟨e', he', hname⟩ := List.mem_map.mp hmem
      obtain ⟨hfresh, -⟩ := imported_of_installCompiler h e' he'
      rw [hname, Dict.get?_insert_self] at hfresh
      cases hfresh

/-! ## Tables of parameter counts -/

/-- Signatures that can all be read have a table of parameter counts. -/
theorem exists_aritiesOf {signatures : List (String × String)}
    (h : ∀ e ∈ signatures, ∃ params, Signature.parse e.2 = .ok params) :
    ∃ arities, aritiesOf signatures = .ok arities := by
  induction signatures with
  | nil => exact ⟨[], rfl⟩
  | cons e rest ih =>
      obtain ⟨⟨params, hparse⟩, hrest⟩ := List.forall_mem_cons.mp h
      obtain ⟨counts, hcounts⟩ := ih hrest
      rw [aritiesOf, hparse]
      dsimp only
      rw [hcounts]
      exact ⟨_, rfl⟩

/-- A table of parameter counts has the names of the signatures, each with the count that its signature
declares. -/
theorem mem_of_aritiesOf {signatures : List (String × String)} {arities : List (String × Nat)}
    (h : aritiesOf signatures = .ok arities) :
    arities.map (·.1) = signatures.map (·.1) ∧
      ∀ e ∈ signatures, ∃ params, Signature.parse e.2 = .ok params ∧
        (e.1, params.length) ∈ arities := by
  induction signatures generalizing arities with
  | nil =>
      cases h
      exact ⟨rfl, List.forall_mem_nil _⟩
  | cons e rest ih =>
      unfold aritiesOf at h
      cases hparse : Signature.parse e.2 with
      | error cause =>
          rw [hparse] at h
          cases h
      | ok params =>
          rw [hparse] at h
          dsimp only at h
          cases hrest : aritiesOf rest with
          | error error =>
              rw [hrest] at h
              cases h
          | ok counts =>
              rw [hrest] at h
              cases h
              obtain ⟨hnames, hcounts⟩ := ih hrest
              refine ⟨congrArg (e.1 :: ·) hnames, List.forall_mem_cons.mpr ⟨?_, fun e' he' => ?_⟩⟩
              · exact ⟨params, hparse, List.mem_cons_self⟩
              · obtain ⟨params', hparse', hmem⟩ := hcounts e' he'
                exact ⟨params', hparse', List.mem_cons_of_mem _ hmem⟩

/-- In a table of signatures under different names, a name has the count that its signature declares. -/
theorem get?_of_aritiesOf {signatures : List (String × String)} {arities : List (String × Nat)}
    (h : aritiesOf signatures = .ok arities) (hnodup : (signatures.map (·.1)).Nodup)
    {name signature : String} (hmem : (name, signature) ∈ signatures) {params : List String}
    (hparse : Signature.parse signature = .ok params) :
    (Dict.ofList arities).get? name = some params.length := by
  obtain ⟨hnames, hcounts⟩ := mem_of_aritiesOf h
  obtain ⟨params', hparse', hcount⟩ := hcounts _ hmem
  rw [hparse] at hparse'
  cases hparse'
  exact (Dict.get?_ofList (hnames ▸ hnodup) _ _).mpr hcount

end Registry

/-! ## All who ask -/

/-- Wherever the arity of a host function is asked for after an installation, the answer is `count`. -/
structure Host.Agrees (host : Host) (r : Registry) (name : String) (count : Nat) : Prop where
  /-- The compiler holds every call to it. -/
  called : ∀ tokens, (host.compiler.draft tokens).arity? name = some count
  /-- The machine takes as many values off the stack. -/
  bound : ∃ f, host.machine.natives.get? name = some f ∧ f.arity = count
  /-- The table of the registry has it. -/
  listed : ∃ arities, r.arities = .ok arities ∧ arities.get? name = some count
  /-- The signature that the compiler writes out declares it. -/
  written : ∃ signature params, host.compiler.signatures.get? name = some signature ∧
    Signature.parse signature = .ok params ∧ params.length = count
  /-- What a cache reads back from all these signatures has it. -/
  readBack : ∀ arities, Registry.aritiesOf host.compiler.signatures.toList = .ok arities →
    (Dict.ofList arities).get? name = some count

namespace Registry

variable {r : Registry} {host : Host} {limits : Machine.Limits} {tracing : Bool}

/-- The table of an installed registry has every entry with the count that its signature declares. -/
theorem exists_arities {c : Compiler} (h : r.compiler = .ok c) :
    ∃ arities, r.arities = .ok arities ∧ ∀ e ∈ r.entries, ∀ params,
      Signature.parse e.signature = .ok params → arities.get? e.name = some params.length := by
  have himported := imported_of_installCompiler h
  have hread : ∀ e ∈ r.entries.map fun e => (e.name, e.signature),
      ∃ params, Signature.parse e.2 = .ok params := by
    rw [List.forall_mem_map]
    intro e he
    obtain ⟨-, params, hparse, -⟩ := himported e he
    exact ⟨params, hparse⟩
  obtain ⟨counts, hcounts⟩ := exists_aritiesOf hread
  have hnodup : ((r.entries.map fun e => (e.name, e.signature)).map (·.1)).Nodup := by
    rw [List.map_map]
    exact nodup_of_installCompiler h
  refine ⟨Dict.ofList counts, ?_, fun e he params hparse => ?_⟩
  · unfold arities
    rw [hcounts]
    rfl
  · exact get?_of_aritiesOf hcounts hnodup (List.mem_map.mpr ⟨e, he, rfl⟩) hparse

/-- The canonical signatures of a compiler are under the names of its host functions. -/
theorem get?_signatures {c : Compiler} {name : String} {params : List String}
    (h : c.natives.get? name = some params) :
    (name, Signature.render name params) ∈ c.signatures.toList := by
  rw [Compiler.toList_signatures]
  exact List.mem_map.mpr ⟨(name, params), Dict.get?_eq_some_iff.mp h, rfl⟩

/-- All who ask for the arity of an entry are told the number of parameters of its signature. -/
theorem agrees_of_host (h : r.host limits tracing = .ok host) {e : Entry} (he : e ∈ r.entries)
    (hname : '(' ∉ e.name.toList) {params : List String}
    (hparse : Signature.parse e.signature = .ok params) :
    host.Agrees r e.name params.length := by
  obtain ⟨hcompiler, hmachine⟩ := host_eq_ok h
  obtain ⟨-, params', hparse', hnative⟩ := imported_of_installCompiler hcompiler e he
  rw [hparse] at hparse'
  cases hparse'
  have hwritten := get?_signatures hnative
  have hrender := (Signature.areParameters_of_parse hparse).parse_render hname
  refine ⟨fun tokens => ?_, ?_, ?_, ?_, fun counts hcounts => ?_⟩
  · have hnone := prelude?_installCompiler hcompiler
    unfold Compile.Draft.arity? Compiler.draft
    rw [hnone, hnative]
    rfl
  · obtain ⟨-, hserved⟩ := (Prepares.installed hcompiler hmachine).traced_served
    exact hserved e.name params hnative
  · obtain ⟨counts, hcounts, heach⟩ := exists_arities hcompiler
    exact ⟨counts, hcounts, heach e he params hparse⟩
  · exact ⟨_, params, Dict.get?_eq_some_iff.mpr hwritten, hrender, rfl⟩
  · refine get?_of_aritiesOf hcounts ?_ hwritten hrender
    exact Dict.nodup_keys _

/-- What a signature declares are non-empty and distinct parameters without commas and without white
space at their ends; in the canonical form under a name without an opening parenthesis they are declared
again, so canonical signatures stay as they are. After an installation into a fresh compiler and a fresh
machine, all who ask for the arity of an entry with such a name are told the number of its parameters. -/
theorem arities_agree :
    (∀ signature params, Signature.parse signature = .ok params →
      Signature.AreParameters params ∧
        ∀ name, '(' ∉ name.toList → Signature.parse (Signature.render name params) = .ok params) ∧
    (∀ name signature text, '(' ∉ name.toList → Signature.canonical name signature = .ok text →
      Signature.canonical name text = .ok text) ∧
    ∀ (r : Registry) (limits : Machine.Limits) (tracing : Bool) (host : Host),
      r.host limits tracing = .ok host →
        (∀ e ∈ r.entries, '(' ∉ e.name.toList →
          ∃ params, Signature.parse e.signature = .ok params ∧
            host.Agrees r e.name params.length) ∧
        (r.PlainNames → ∃ arities, aritiesOf host.compiler.signatures.toList = .ok arities) := by
  refine ⟨fun signature params hparse => ?_, fun name signature text hname htext => ?_,
    fun r limits tracing host hhost => ⟨fun e he hname => ?_, fun hnames => ?_⟩⟩
  · have hparams := Signature.areParameters_of_parse hparse
    exact ⟨hparams, fun name hname => hparams.parse_render hname⟩
  · exact Signature.canonical_of_canonical hname htext
  · obtain ⟨hcompiler, -⟩ := host_eq_ok hhost
    obtain ⟨-, params, hparse, -⟩ := imported_of_installCompiler hcompiler e he
    exact ⟨params, hparse, agrees_of_host hhost he hname hparse⟩
  · obtain ⟨hcompiler, -⟩ := host_eq_ok hhost
    obtain ⟨arities, harities, -⟩ :=
      (Compiler.canonical_of_registry hcompiler hnames).aritiesOf_signatures
    exact ⟨arities, harities⟩

/-- A signature with a line break, and with parentheses inside of its parameters. -/
theorem arities_agree_fold :
    ∃ host, (standard.add [⟨"fold", "fold( list , by(x, y)\n,start )", Native.log⟩]).host {} =
        .ok host ∧
      host.Agrees (standard.add [⟨"fold", "fold( list , by(x, y)\n,start )", Native.log⟩]) "fold" 4 ∧
      Signature.parse "fold(list, by(x, y), start)" = .ok ["list", "by(x", "y)", "start"] ∧
      Signature.canonical "fold" "fold(list, by(x, y), start)" = .ok "fold(list, by(x, y), start)" := by
  have hok : ((standard.add [⟨"fold", "fold( list , by(x, y)\n,start )", Native.log⟩]).host
      {}).isOk = true := by cbv
  obtain ⟨host, hhost⟩ := exists_of_isOk hok
  have hparse : Signature.parse "fold( list , by(x, y)\n,start )" =
      .ok ["list", "by(x", "y)", "start"] := by cbv
  obtain ⟨hread, hcanonical, hinstalled⟩ := arities_agree
  obtain ⟨params, hparams, hagrees⟩ := (hinstalled _ _ _ host hhost).1
    ⟨"fold", "fold( list , by(x, y)\n,start )", Native.log⟩
    (List.mem_append_right _ (List.mem_singleton.mpr rfl)) (by decide)
  rw [hparse] at hparams
  cases hparams
  refine ⟨host, hhost, hagrees, ?_, ?_⟩
  · exact (hread _ _ hparse).2 "fold" (by decide)
  · exact hcanonical "fold" "fold( list , by(x, y)\n,start )" _ (by decide) (by cbv)

end Registry

end LineScript
