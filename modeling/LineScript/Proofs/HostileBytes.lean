/-
# Reading bytes of any origin

Stored programs come from files and from caches, so their reader has to expect any bytes. What it
accepts is described without it: an envelope of the right kind whose functions are all there, each
under its own name and the top level among them. Everything else is rejected, and nothing that is
read is left out of the program.

One shape is not rejected in order. A function other than the top level may be stored as an empty
reference, and on that the reader breaks down. It does so on no other bytes, and it never takes
such bytes for a program.
-/

import LineScript.Proofs.StoredPrograms

namespace LineScript.Wire

open LineScript.Code
open LineScript.Text (Bytes)

/-- What the reader makes of bytes before it looks at the functions. -/
def read? (bytes : Bytes) : Option Envelope := (Item.decode? bytes).bind envelope?

theorem decode_eq (bytes : Bytes) :
    decode bytes = match read? bytes with
      | none => .error .malformed
      | some e => e.program := rfl

/-- An envelope that holds a program: it is of the right kind and version, its functions are
those of the program, the top level is among them, and each has the name it is stored under. -/
structure Envelope.Holds (e : Envelope) (p : Program) : Prop where
  magic : e.magic = Wire.magic
  version : e.version ≤ formatVersion
  functions : e.functions = p.functions.map some
  main : ∃ f, p.main? = some f
  named : ∀ name f, p.functions.get? name = some f → f.name = name

/-! ## Functions and their names -/

theorem eq_of_named? {entries : List (String × Option Function)}
    {functions : List (String × Function)} (h : named? entries = .ok functions) :
    entries = functions.map (fun f => (f.1, some f.2)) ∧ ∀ f ∈ functions, f.2.name = f.1 := by
  induction entries generalizing functions with
  | nil =>
      cases h
      exact ⟨rfl, List.forall_mem_nil _⟩
  | cons entry rest ih =>
      obtain ⟨key, _ | f⟩ := entry
      · cases h
      · unfold named? at h
        split at h
        · rename_i hname
          cases hrest : named? rest with
          | error rejection =>
              rw [hrest] at h
              cases h
          | ok others =>
              rw [hrest] at h
              cases h
              obtain ⟨heq, hothers⟩ := ih hrest
              rw [List.map_cons, heq]
              exact ⟨rfl, List.forall_mem_cons.mpr ⟨hname, hothers⟩⟩
        · cases h

/-- A rejection for the sake of a function says which one is empty, or which one has another
name. -/
theorem named?_error {entries : List (String × Option Function)} {rejection : Rejection}
    (h : named? entries = .error rejection) :
    (∃ key, rejection = .missing key ∧ (key, none) ∈ entries) ∨
      ∃ key f, rejection = .misnamed key f.name ∧ (key, some f) ∈ entries ∧ f.name ≠ key := by
  induction entries with
  | nil => cases h
  | cons entry rest ih =>
      obtain ⟨key, _ | f⟩ := entry
      · cases h
        exact .inl ⟨key, rfl, List.mem_cons_self⟩
      · unfold named? at h
        split at h
        · cases hrest : named? rest with
          | ok others =>
              rw [hrest] at h
              cases h
          | error other =>
              rw [hrest] at h
              cases h
              obtain ⟨k, hk, hmem⟩ | ⟨k, g, hk, hmem, hne⟩ := ih hrest
              · exact .inl ⟨k, hk, List.mem_cons_of_mem _ hmem⟩
              · exact .inr ⟨k, g, hk, List.mem_cons_of_mem _ hmem, hne⟩
        · rename_i hname
          cases h
          exact .inr ⟨key, f, rfl, List.mem_cons_self, hname⟩

/-! ## Envelopes -/

namespace Envelope

variable {e : Envelope} {p : Program}

theorem toList_functions (h : e.functions = p.functions.map some) :
    e.functions.toList = p.functions.entries.map fun f => (f.1, some f.2) := by
  rw [h]
  rfl

theorem Holds.program_eq (h : e.Holds p) : e.program = .ok p := by
  obtain ⟨main, hmain⟩ := h.main
  have htop : e.functions.get? topLevel = some (some main) := by
    rw [h.functions, Dict.get?_map]
    exact congrArg (Option.map some) hmain
  have hnamed : ∀ f ∈ p.functions.entries, f.2.name = f.1 :=
    fun f hf => h.named f.1 f.2 (Dict.get?_eq_some_iff.mpr hf)
  have hversion := h.version
  unfold program
  rw [if_neg (by simp [h.magic]), if_neg (by omega), htop, toList_functions h.functions]
  dsimp only
  rw [named?_map hnamed]
  exact congrArg (fun d => Except.ok (Program.mk d)) (Dict.ofList_of_perm (List.Perm.refl _))

/-- An envelope is rejected for its kind, its version or for want of a top level, or else the names
of its functions decide. -/
theorem program_cases (e : Envelope) :
    (∃ rejection, e.program = .error rejection ∧ ∀ key, rejection ≠ .missing key) ∨
      e.magic = Wire.magic ∧ e.version ≤ formatVersion ∧
        (∃ main, e.functions.get? topLevel = some (some main)) ∧
        e.program = (named? e.functions.toList).map fun entries => ⟨Dict.ofList entries⟩ := by
  unfold program
  split
  · exact .inl ⟨_, rfl, nofun⟩
  · rename_i hmagic
    split
    · exact .inl ⟨_, rfl, nofun⟩
    · rename_i hversion
      split
      · rename_i main hmain
        exact .inr ⟨Decidable.not_not.mp hmagic, Nat.le_of_not_lt hversion, ⟨main, hmain⟩, rfl⟩
      · exact .inl ⟨_, rfl, nofun⟩

/-- Functions that all are there under their own names make a dictionary of their own. -/
theorem exists_of_named? {d : Dict (Option Function)} {entries : List (String × Function)}
    (h : named? d.toList = .ok entries) :
    d = (Dict.ofList entries).map some ∧
      ∀ name f, (Dict.ofList entries).get? name = some f → f.name = name := by
  obtain ⟨hentries, hnames⟩ := eq_of_named? h
  have hascending : entries.Pairwise (fun a b => a.1 < b.1) := by
    have h := d.ascending
    rw [show d.entries = _ from hentries, List.pairwise_map] at h
    exact h
  have hfunctions : Dict.ofList entries = ⟨entries, hascending⟩ :=
    Dict.ofList_of_perm (List.Perm.refl _)
  rw [hfunctions]
  exact ⟨Dict.ext hentries, fun name f hf => hnames (name, f) (Dict.get?_eq_some_iff.mp hf)⟩

theorem holds_of_program (h : e.program = .ok p) : e.Holds p := by
  obtain ⟨rejection, hrejection, -⟩ | ⟨hmagic, hversion, ⟨main, hmain⟩, hprogram⟩ := e.program_cases
  · cases h.symm.trans hrejection
  · rw [hprogram] at h
    cases hnamed : named? e.functions.toList with
    | error rejection =>
        rw [hnamed] at h
        cases h
    | ok entries =>
        rw [hnamed] at h
        cases h
        obtain ⟨hfunctions, hnames⟩ := exists_of_named? hnamed
        refine ⟨hmagic, hversion, hfunctions, ?_, hnames⟩
        rw [hfunctions, Dict.get?_map] at hmain
        obtain ⟨f, hf, -⟩ := Option.map_eq_some_iff.mp hmain
        exact ⟨f, hf⟩

/-- An envelope is accepted exactly for the program it holds. -/
theorem program_eq_ok_iff : e.program = .ok p ↔ e.Holds p :=
  ⟨holds_of_program, Holds.program_eq⟩

/-- The reader breaks down at an empty function, and not at the top level. -/
theorem program_eq_missing {key : String} (h : e.program = .error (.missing key)) :
    e.functions.get? key = some none ∧ key ≠ topLevel := by
  obtain ⟨rejection, hrejection, hne⟩ | ⟨-, -, ⟨main, hmain⟩, hprogram⟩ := e.program_cases
  · cases h.symm.trans hrejection
    exact absurd rfl (hne key)
  · rw [hprogram] at h
    cases hnamed : named? e.functions.toList with
    | ok entries =>
        rw [hnamed] at h
        cases h
    | error rejection =>
        rw [hnamed] at h
        cases h
        obtain ⟨k, hk, hmem⟩ | ⟨k, f, hk, -⟩ := named?_error hnamed
        · cases hk
          have hempty : e.functions.get? key = some none := Dict.get?_eq_some_iff.mpr hmem
          refine ⟨hempty, ?_⟩
          rintro rfl
          cases hempty.symm.trans hmain
        · cases hk

end Envelope

/-! ## Bytes -/

/-- A function other than the top level is stored as an empty reference. -/
def HasEmptyFunction (bytes : Bytes) : Prop :=
  ∃ e key, read? bytes = some e ∧ key ≠ topLevel ∧ e.functions.get? key = some none

/-- Reading is total on bytes of any origin, as long as no function is an empty reference: then it
gives a program or a reason to reject the bytes. A program is given exactly for the bytes whose
envelope holds it, so it has a top level, all functions of the envelope are in it, and each
carries the name it is stored under. The reader breaks down only over an empty reference, and
never takes bytes with one for a program. -/
theorem decode_total (bytes : Bytes) :
    (¬HasEmptyFunction bytes →
      (∃ p, decode bytes = .ok p) ∨
        ∃ rejection, decode bytes = .error rejection ∧ ∀ key, rejection ≠ .missing key) ∧
    (∀ p, decode bytes = .ok p ↔ ∃ e, read? bytes = some e ∧ e.Holds p) ∧
    (HasEmptyFunction bytes → ∀ p, decode bytes ≠ .ok p) := by
  have hok : ∀ p, decode bytes = .ok p ↔ ∃ e, read? bytes = some e ∧ e.Holds p := by
    intro p
    rw [decode_eq]
    cases read? bytes with
    | none => simp
    | some e => simp [Envelope.program_eq_ok_iff]
  refine ⟨fun hfull => ?_, hok, fun hempty p hp => ?_⟩
  · cases hdecode : decode bytes with
    | ok p => exact .inl ⟨p, rfl⟩
    | error rejection =>
        refine .inr ⟨rejection, rfl, ?_⟩
        rintro key rfl
        rw [decode_eq] at hdecode
        cases hread : read? bytes with
        | none =>
            rw [hread] at hdecode
            cases hdecode
        | some e =>
            rw [hread] at hdecode
            obtain ⟨hkey, hname⟩ := Envelope.program_eq_missing hdecode
            exact hfull ⟨e, key, hread, hname, hkey⟩
  · obtain ⟨e, key, hread, -, hkey⟩ := hempty
    obtain ⟨e', hread', hholds⟩ := (hok p).mp hp
    cases hread.symm.trans hread'
    rw [hholds.functions, Dict.get?_map, Option.map_eq_some_iff] at hkey
    obtain ⟨f, -, hf⟩ := hkey
    cases hf

/-- The bytes of a program with an empty top level and what else is given as its functions. -/
def storedBeside (beside : List (Item × Item)) : Bytes :=
  (record [(1, .ofString magic), (2, .unsigned formatVersion),
    (3, record [(1, .map ((.ofString topLevel, ofFunction { name := topLevel }) :: beside))])]).encode

/-- The top level alone is read in order, and an empty reference beside it makes no program. -/
theorem decode_total_beside :
    ((∃ p, decode (storedBeside []) = .ok p) ∨ ∃ rejection,
      decode (storedBeside []) = .error rejection ∧ ∀ key, rejection ≠ .missing key) ∧
    ∀ p, decode (storedBeside [(.ofString "f", .null)]) ≠ .ok p := by
  have hfull : ∀ e ∈ read? (storedBeside []), ∀ f ∈ e.functions.entries, f.2.isSome = true :=
    of_decide_eq_true (by decide +kernel)
  have hempty : ∃ e ∈ read? (storedBeside [(.ofString "f", .null)]),
      (e.functions.get? "f").any Option.isNone = true := of_decide_eq_true (by decide +kernel)
  refine ⟨(decode_total _).1 ?_, (decode_total _).2.2 ?_⟩
  · rintro ⟨e, key, hread, -, hkey⟩
    cases hfull e hread _ (Dict.get?_eq_some_iff.mp hkey)
  · obtain ⟨e, hread, hf⟩ := hempty
    refine ⟨e, "f", hread, by decide, ?_⟩
    obtain ⟨f, hget, hnone⟩ := (Option.any_eq_true _ _).mp hf
    rw [hget, Option.isNone_iff_eq_none.mp hnone]

/-- An empty reference beside the top level breaks the reader down. -/
theorem decode_emptyReference :
    decode (storedBeside [(.ofString "f", .null)]) = .error (.missing "f") := by
  have hmissing : (match decode (storedBeside [(.ofString "f", .null)]) with
      | .ok _ => false
      | .error rejection => decide (rejection = .missing "f")) = true := by decide +kernel
  cases hdecode : decode (storedBeside [(.ofString "f", .null)]) with
  | ok p =>
      rw [hdecode] at hmissing
      cases hmissing
  | error rejection =>
      rw [hdecode] at hmissing
      rw [of_decide_eq_true hmissing]

end LineScript.Wire
