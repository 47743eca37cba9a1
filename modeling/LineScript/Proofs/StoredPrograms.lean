/-
# Stored programs

A program comes back from its bytes. Fields that hold nothing are left out when they are written
and stand for nothing when they are missing, so leaving them out loses nothing, with one exception:
the negative zero counts as nothing and comes back as zero. Lists left out stay left out, empty
ones stay empty, and dictionaries are read from entries in stored order, which is not their own.

What is asked of the program is what reading asks of the bytes: a top level, functions under their
own names, texts and numbers of machine size, and no list or dictionary past the greatest size.
-/

import LineScript.Proofs.DataItems
import LineScript.Proofs.EncodedTexts
import LineScript.Wire.Stored

namespace LineScript.Code

open LineScript.Number

/-! ## What is kept -/

/-- The literal that comes back: the negative zero has become zero. -/
def Literal.stored (l : Literal) : Literal :=
  if l.number = -0 then { l with number := 0 } else l

/-- The instruction that comes back. -/
def Instruction.stored (i : Instruction) : Instruction := { i with literal := i.literal.stored }

/-- The function that comes back. -/
def Function.stored (f : Function) : Function :=
  { f with code? := f.code?.map (·.map Instruction.stored) }

/-- The program that comes back. -/
def Program.stored (p : Program) : Program := ⟨p.functions.map Function.stored⟩

/-! ## What can be stored -/

/-- A text whose length is a machine number. -/
def TextFits (s : String) : Prop := s.utf8ByteSize < 2 ^ 64

/-- An instruction whose texts and numbers have machine size. -/
structure Instruction.Sized (i : Instruction) : Prop where
  string : TextFits i.literal.string
  name : TextFits i.name
  target : fits64 i.target = true
  line : fits64 i.line = true

/-- A function whose texts and numbers have machine size. -/
structure Function.Sized (f : Function) : Prop where
  name : TextFits f.name
  params : ∀ name ∈ f.params, TextFits name
  scope : ∀ e ∈ f.scope.entries, TextFits e.1 ∧ ∀ marker ∈ e.2, TextFits marker
  code : ∀ i ∈ f.code.toList, i.Sized

/-- A function whose lists and scope are within the greatest size that is read. -/
structure Function.Limited (f : Function) : Prop where
  params : f.params.length ≤ Wire.Item.maxEntries
  scope : f.scope.size ≤ Wire.Item.maxEntries
  code : f.length ≤ Wire.Item.maxEntries

/-- A program without lists or dictionaries past the greatest size that is read. -/
structure Program.Limited (p : Program) : Prop where
  functions : p.functions.size ≤ Wire.Item.maxEntries
  function : ∀ name f, p.functions.get? name = some f → f.Limited

/-- A program whose functions are stored under their own names, all of machine size. -/
structure Program.Storable (p : Program) : Prop where
  main : ∃ f, p.main? = some f
  named : ∀ name f, p.functions.get? name = some f → f.name = name
  sized : ∀ name f, p.functions.get? name = some f → f.Sized

/-! All of these can be checked. -/

instance (s : String) : Decidable (TextFits s) :=
  inferInstanceAs (Decidable (s.utf8ByteSize < 2 ^ 64))

instance (i : Instruction) : Decidable i.Sized :=
  decidable_of_iff (TextFits i.literal.string ∧ TextFits i.name ∧ fits64 i.target = true ∧
      fits64 i.line = true)
    ⟨fun ⟨hstring, hname, htarget, hline⟩ => ⟨hstring, hname, htarget, hline⟩,
      fun h => ⟨h.string, h.name, h.target, h.line⟩⟩

instance (f : Function) : Decidable f.Sized :=
  decidable_of_iff (TextFits f.name ∧ (∀ name ∈ f.params, TextFits name) ∧
      (∀ e ∈ f.scope.entries, TextFits e.1 ∧ ∀ marker ∈ e.2, TextFits marker) ∧
      ∀ i ∈ f.code.toList, i.Sized)
    ⟨fun ⟨hname, hparams, hscope, hcode⟩ => ⟨hname, hparams, hscope, hcode⟩,
      fun h => ⟨h.name, h.params, h.scope, h.code⟩⟩

instance (f : Function) : Decidable f.Limited :=
  decidable_of_iff (f.params.length ≤ Wire.Item.maxEntries ∧ f.scope.size ≤ Wire.Item.maxEntries ∧
      f.length ≤ Wire.Item.maxEntries)
    ⟨fun ⟨hparams, hscope, hcode⟩ => ⟨hparams, hscope, hcode⟩, fun h => ⟨h.params, h.scope, h.code⟩⟩

theorem Program.forall_get?_iff {good : String → Function → Prop} {p : Program} :
    (∀ name f, p.functions.get? name = some f → good name f) ↔
      ∀ e ∈ p.functions.entries, good e.1 e.2 :=
  ⟨fun h e he => h e.1 e.2 (Dict.get?_eq_some_iff.mpr he),
    fun h name f hf => h (name, f) (Dict.get?_eq_some_iff.mp hf)⟩

instance (p : Program) : Decidable p.Limited :=
  decidable_of_iff (p.functions.size ≤ Wire.Item.maxEntries ∧ ∀ e ∈ p.functions.entries, e.2.Limited)
    ⟨fun ⟨hsize, hfunctions⟩ => ⟨hsize, Program.forall_get?_iff.mpr hfunctions⟩,
      fun h => ⟨h.functions, Program.forall_get?_iff.mp h.function⟩⟩

instance (p : Program) : Decidable p.Storable :=
  decidable_of_iff (p.main?.isSome ∧ (∀ e ∈ p.functions.entries, e.2.name = e.1) ∧
      ∀ e ∈ p.functions.entries, e.2.Sized)
    ⟨fun ⟨hmain, hnamed, hsized⟩ =>
        ⟨Option.isSome_iff_exists.mp hmain, Program.forall_get?_iff.mpr hnamed,
          Program.forall_get?_iff.mpr hsized⟩,
      fun h => ⟨Option.isSome_iff_exists.mpr h.main, Program.forall_get?_iff.mp h.named,
        Program.forall_get?_iff.mp h.sized⟩⟩

end LineScript.Code

namespace LineScript.Wire

open LineScript.Code LineScript.Number

namespace Item

/-! ## Single fields -/

@[simp] theorem string?_ofString (s : String) : (ofString s).string? = some s := by
  simp [string?, ofString, untagged?, Text.decode?_encode, String.join]

theorem byte?_unsigned {n : Nat} (h : n < 256) : (unsigned n).byte? = some (UInt8.ofNat n) := by
  have hint : (unsigned n).int? = some (n : Int) := rfl
  have hwithin : (unsigned n).intWithin? 0 255 = some (n : Int) := by
    have hle : (n : Int) ≤ 255 := by omega
    simp [intWithin?, hint, hle]
  rw [byte?, hwithin]
  rfl

theorem int?_ofInt {n : Int} (h : fits64 n = true) : (ofInt n).int? = some n := by
  simp only [fits64, Bool.and_eq_true, decide_eq_true_eq, twoTo_eq] at h
  unfold ofInt
  split
  · rename_i hnonneg
    exact congrArg some (Int.toNat_of_nonneg hnonneg)
  · rename_i hnegative
    have hint : (negative (-1 - n).toNat).int?
        = if (-1 - n).toNat < twoTo 63 then some (-1 - ((-1 - n).toNat : Int)) else none := rfl
    rw [hint, twoTo_eq, if_pos (by omega)]
    congr 1
    omega

/-- The range of the numbers that an instruction holds. -/
theorem intWithin?_of_int? {item : Item} {n : Int} (hitem : item.int? = some n) (h : fits64 n = true) :
    item.intWithin? (-Number.twoTo 63) (Number.twoTo 63 - 1) = some n := by
  simp only [fits64, Bool.and_eq_true, decide_eq_true_eq] at h
  have hhigh : n ≤ Number.twoTo 63 - 1 := by omega
  rw [intWithin?, hitem, Option.filter_some, decide_eq_true h.1, decide_eq_true hhigh]
  rfl

@[simp] theorem number?_float (x : Float) : (float x).number? = some x := rfl

@[simp] theorem number?_null : null.number? = some 0 := by
  decide

/-! ## Structures -/

/-- The fields of a structure as they are read. -/
def numbered (fields : List (Nat × Item)) : List (FieldKey × Item) :=
  fields.map fun f => (.number f.1, f.2)

theorem mapM_eq_some_map {α β : Type} {f : α → Option β} {g : α → β} {items : List α}
    (h : ∀ a ∈ items, f a = some (g a)) : items.mapM f = some (items.map g) := by
  induction items with
  | nil => rfl
  | cons a items ih =>
      have hrest := ih fun b hb => h b (List.mem_cons_of_mem _ hb)
      simp [List.mapM_cons, h a List.mem_cons_self, hrest]

/-- Fields whose keys are read as the numbers they are. -/
def Keyed (fields : List (Nat × Item)) : Prop := ∀ f ∈ fields, f.1 < 2 ^ 63

@[simp] theorem keyed_nil : Keyed [] := fun _ h => nomatch h

@[simp] theorem keyed_cons {key : Nat} {value : Item} {fields : List (Nat × Item)} :
    Keyed ((key, value) :: fields) ↔ key < 2 ^ 63 ∧ Keyed fields :=
  List.forall_mem_cons

@[simp] theorem keyed_append {fields fields' : List (Nat × Item)} :
    Keyed (fields ++ fields') ↔ Keyed fields ∧ Keyed fields' :=
  List.forall_mem_append

theorem keyed_optional {key : Nat} (absent : Bool) (value : Item) (h : key < 2 ^ 63) :
    Keyed (optional key absent value) := by
  cases absent with
  | true => exact keyed_nil
  | false => exact keyed_cons.mpr ⟨h, keyed_nil⟩

theorem fields?_record {fields : List (Nat × Item)} (h : Keyed fields) :
    (record fields).fields? = some (numbered fields) := by
  have hkeyed : (record fields).fields?
      = (fields.map fun f => ((unsigned f.1 : Item), f.2)).mapM
        fun e => (fieldKey? e.1).map (·, e.2) := rfl
  rw [hkeyed, List.mapM_map]
  apply mapM_eq_some_map
  intro f hf
  have hkey : f.1 < twoTo 63 := by
    rw [twoTo_eq]
    exact h f hf
  simp only [Function.comp_apply, fieldKey?, if_pos hkey, Option.map_some]

@[simp] theorem field_nil (n : Nat) : field n (numbered []) = null := rfl

theorem field_cons (n key : Nat) (value : Item) (fields : List (Nat × Item)) :
    field n (numbered ((key, value) :: fields))
      = if key = n then value else field n (numbered fields) := by
  have htest : (decide (FieldKey.number key = .number n)
      || decide (FieldKey.number key = .name (toString n))) = decide (key = n) := by
    simp only [FieldKey.number.injEq, Int.natCast_inj, reduceCtorEq, decide_false, Bool.or_false]
  simp only [field, numbered, List.map_cons, List.find?_cons, htest]
  by_cases hkey : key = n
  · rw [decide_eq_true hkey, if_pos hkey]
    rfl
  · rw [decide_eq_false hkey, if_neg hkey]

theorem field_optional (n key : Nat) (absent : Bool) (value : Item) (fields : List (Nat × Item)) :
    field n (numbered (optional key absent value ++ fields))
      = if key = n ∧ absent = false then value else field n (numbered fields) := by
  cases absent with
  | true => simp [optional]
  | false => simp [optional, field_cons]

theorem field_optional_last (n key : Nat) (absent : Bool) (value : Item) :
    field n (numbered (optional key absent value))
      = if key = n ∧ absent = false then value else null := by
  have hlast := field_optional n key absent value []
  rwa [List.append_nil] at hlast

/-! ## Fields that may be left out -/

theorem string?_optional (s : String) :
    (if decide (s = "") = false then ofString s else null).string? = some s := by
  split
  · exact string?_ofString s
  · rename_i hempty
    have hempty : s = "" := by simpa using hempty
    rw [hempty]
    rfl

theorem bool?_optional (b : Bool) : (if (!b) = false then ofBool true else null).bool? = some b := by
  cases b <;> rfl

theorem intWithin?_optional {n : Int} (h : fits64 n = true) :
    (if decide (n = 0) = false then ofInt n else null).intWithin? (-Number.twoTo 63)
      (Number.twoTo 63 - 1) = some n := by
  split
  · exact intWithin?_of_int? (int?_ofInt h) h
  · rename_i hzero
    have hzero : n = 0 := by simpa using hzero
    rw [hzero]
    exact intWithin?_of_int? rfl (by decide)

/-! ## Lists and dictionaries -/

theorem list?_ofList? {α β : Type} {read : Item → Option β} {value : α → Item} {g : α → β}
    {items? : Option (List α)} (h : ∀ items ∈ items?, ∀ a ∈ items, read (value a) = some (g a)) :
    list? read (ofList? value items?) = some (items?.map (List.map g)) := by
  cases items? with
  | none => rfl
  | some items =>
      have hread : list? read (ofList? value (some items))
          = ((items.map value).mapM read).map some := rfl
      rw [hread, List.mapM_map]
      exact congrArg (Option.map some) (mapM_eq_some_map (h items rfl))

theorem entries?_map {α β : Type} {read : Item → Option β} {value : α → Item} {g : α → β}
    {entries : List (String × α)} (h : ∀ e ∈ entries, read (value e.2) = some (g e.2))
    (before : String) :
    entries? read before (entries.map fun e => (.ofString e.1, value e.2))
      = some (entries.map fun e => (e.1, g e.2)) := by
  induction entries generalizing before with
  | nil => rfl
  | cons e entries ih =>
      have hkey : untagged? (.ofString e.1) = some (.ofString e.1) := rfl
      have hnull : (ofString e.1).isNull = false := rfl
      have hrest := ih (fun e he => h e (List.mem_cons_of_mem _ he)) e.1
      simp [entries?, hkey, hnull, h e List.mem_cons_self, hrest]

/-- The stored order of the entries is some order of them. -/
theorem dict?_ofDict {α β : Type} {read : Item → Option β} {value : α → Item} {g : α → β} {d : Dict α}
    (h : ∀ e ∈ d.entries, read (value e.2) = some (g e.2)) :
    dict? read (ofDict value d) = some (d.map g) := by
  have hsorted := List.mergeSort_perm d.toList (fun a b => keyBefore a.1 b.1)
  have hread : dict? read (ofDict value d)
      = (entries? read "" ((d.toList.mergeSort fun a b => keyBefore a.1 b.1).map
          fun e => (.ofString e.1, value e.2))).map Dict.ofList := rfl
  rw [hread, entries?_map fun e he => h e (hsorted.mem_iff.mp he)]
  exact congrArg some (Dict.ofList_of_perm (hsorted.map _))

end Item

/-! ## Literals and instructions -/

theorem toNat_kind_lt (kind : LiteralKind) : kind.toNat < 256 := by
  cases kind <;> simp only [LiteralKind.toNat] <;> omega

theorem number_lt (op : Opcode) : op.number < 256 := by
  cases op <;> simp only [Opcode.number] <;> omega

/-- Every byte stands for a kind of literal, and for no other one. -/
theorem ofByte_kind (kind : LiteralKind) : LiteralKind.ofByte (UInt8.ofNat kind.toNat) = kind := by
  cases kind with
  | unassigned offset =>
      have hbyte : (UInt8.ofNat (4 + offset.val)).toNat = 4 + offset.val := by
        rw [UInt8.toNat_ofNat']
        omega
      have hpast : LiteralKind.all[4 + offset.val]? = none := by
        rw [List.getElem?_eq_none_iff]
        exact Nat.le_add_right 4 _
      simp only [LiteralKind.toNat, LiteralKind.ofByte, hbyte, hpast, Nat.add_sub_cancel_left]
  | _ => rfl

/-- Every byte stands for an operation, and for no other one. -/
theorem ofByte_number (op : Opcode) : Opcode.ofByte (UInt8.ofNat op.number) = op := by
  cases op with
  | unassigned offset =>
      have hbyte : (UInt8.ofNat (31 + offset.val)).toNat = 31 + offset.val := by
        rw [UInt8.toNat_ofNat']
        omega
      have hpast : Opcode.all[31 + offset.val]? = none := by
        rw [List.getElem?_eq_none_iff]
        exact Nat.le_add_right 31 _
      simp only [Opcode.number, Opcode.ofByte, hbyte, hpast, Nat.add_sub_cancel_left]
  | _ => rfl

/-- Both zeros are left out, and what is left out is zero. -/
theorem number?_optional (l : Literal) :
    (if (l.number == 0) = false then Item.float l.number else .null).number?
      = some l.stored.number := by
  unfold Literal.stored
  split
  · rename_i hne
    have hnegative : l.number ≠ -0 := by
      intro hnegative
      rw [(beq_zero_iff l.number).mpr (.inr hnegative)] at hne
      cases hne
    rw [Item.number?_float, if_neg hnegative]
  · rename_i hzero
    have hzero := (beq_zero_iff l.number).mp (by simpa using hzero)
    rw [Item.number?_null]
    split
    · rfl
    · rename_i hpositive
      rw [hzero.resolve_right hpositive]

theorem literal?_ofLiteral (l : Literal) : literal? (ofLiteral l) = some l.stored := by
  unfold literal? ofLiteral
  rw [Item.fields?_record (by simp [Item.keyed_optional])]
  simp only [List.append_assoc, Option.bind_eq_bind, Option.bind_some, Item.field_cons,
    Item.field_optional, Item.field_optional_last, reduceIte, Nat.reduceEqDiff, false_and, true_and]
  rw [Item.byte?_unsigned (toNat_kind_lt _), number?_optional, Item.string?_optional,
    Item.bool?_optional]
  simp only [Option.bind_some, ofByte_kind]
  unfold Literal.stored
  split <;> rfl

theorem instruction?_ofInstruction {i : Instruction} (h : i.Sized) :
    instruction? (ofInstruction i) = some i.stored := by
  unfold instruction? ofInstruction
  rw [Item.fields?_record (by simp [Item.keyed_optional])]
  simp only [List.append_assoc, Option.bind_eq_bind, Option.bind_some, Item.field_cons,
    Item.field_optional, Item.field_optional_last, reduceIte, Nat.reduceEqDiff, false_and, true_and]
  rw [Item.byte?_unsigned (number_lt _), literal?_ofLiteral, Item.string?_optional,
    Item.intWithin?_optional h.target, Item.intWithin?_optional h.line]
  simp only [Option.bind_some, ofByte_number]
  rfl

/-! ## Functions and programs -/

theorem reference?_ofMarker (marker : Option String) :
    Item.reference? marker? (ofMarker marker) = some marker := by
  cases marker with
  | none => rfl
  | some name =>
      have hnull : (ofMarker (some name)).isNull = false := rfl
      have hmarker : marker? (ofMarker (some name)) = some name := by
        unfold marker? ofMarker
        rw [Item.fields?_record (by simp)]
        exact Item.string?_ofString name
      rw [Item.reference?, hnull, hmarker]
      rfl

theorem function?_ofFunction {f : Function} (h : f.Sized) :
    function? (ofFunction f) = some f.stored := by
  have hparams := @Item.list?_ofList? _ _ Item.string? .ofString id f.params?
    fun _ _ name _ => Item.string?_ofString name
  have hscope := @Item.dict?_ofDict _ _ (Item.reference? marker?) ofMarker id f.scope
    fun e _ => reference?_ofMarker e.2
  have hcode := @Item.list?_ofList? _ _ instruction? ofInstruction Instruction.stored
    (f.code?.map Array.toList) ?_
  · unfold function? ofFunction
    rw [Item.fields?_record (by simp)]
    simp only [Option.bind_eq_bind, Option.bind_some, Item.field_cons, reduceIte, Nat.reduceEqDiff]
    rw [Item.string?_ofString, hparams, hscope, hcode]
    have hscope' : f.scope.map id = f.scope := Dict.map_eq_self fun _ _ _ => rfl
    have hcode' : ((f.code?.map Array.toList).map (List.map Instruction.stored)).map List.toArray
        = f.code?.map (·.map Instruction.stored) := by
      cases f.code? with
      | none => rfl
      | some code => simp [← Array.toList_map]
    simp only [Option.bind_some, List.map_id_fun, Option.map_id_fun, id_eq, hscope', hcode']
    rfl
  · intro items hitems i hi
    obtain ⟨code, hcode, rfl⟩ := Option.map_eq_some_iff.mp hitems
    refine instruction?_ofInstruction (h.code i ?_)
    rw [Function.code, hcode]
    exact hi

/-- The functions of a program under their names, as they are read. -/
theorem envelope?_ofProgram {p : Program} (h : ∀ name f, p.functions.get? name = some f → f.Sized) :
    envelope? (ofProgram p)
      = some ⟨magic, formatVersion, p.functions.map fun f => some f.stored⟩ := by
  have hfunctions := @Item.dict?_ofDict _ _ (Item.reference? function?) ofFunction
    (fun f => some f.stored) p.functions ?_
  · unfold envelope? ofProgram
    rw [Item.fields?_record (by simp)]
    simp only [Option.bind_eq_bind, Option.bind_some, Item.field_cons, reduceIte, Nat.reduceEqDiff]
    rw [Item.string?_ofString, Item.fields?_record (by simp)]
    simp only [Option.bind_some, Item.field_cons, reduceIte]
    rw [hfunctions]
    rfl
  · intro e he
    have hsized := h e.1 e.2 (Dict.get?_eq_some_iff.mpr he)
    have hnull : (ofFunction e.2).isNull = false := rfl
    rw [Item.reference?, hnull, function?_ofFunction hsized]
    rfl

/-- Functions under their own names pass the check of names. -/
theorem named?_map {entries : List (String × Function)} (h : ∀ e ∈ entries, e.2.name = e.1) :
    named? (entries.map fun e => (e.1, some e.2)) = .ok entries := by
  induction entries with
  | nil => rfl
  | cons e entries ih =>
      have hrest := ih fun e he => h e (List.mem_cons_of_mem _ he)
      simp only [List.map_cons, named?, h e List.mem_cons_self, reduceIte, hrest]
      rfl

theorem program_envelope {p : Program} (h : p.Storable) :
    Envelope.program ⟨magic, formatVersion, p.functions.map fun f => some f.stored⟩
      = .ok p.stored := by
  obtain ⟨main, hmain⟩ := h.main
  have hget : (p.functions.map fun f => some f.stored).get? topLevel = some (some main.stored) := by
    rw [Dict.get?_map]
    exact congrArg (Option.map _) hmain
  have hentries : (p.functions.map fun f => some f.stored).toList
      = p.stored.functions.entries.map fun e => (e.1, some e.2) := by
    simp [Dict.toList, Dict.map, Program.stored]
  have hnamed : ∀ e ∈ p.stored.functions.entries, e.2.name = e.1 := by
    intro e he
    obtain ⟨e', he', rfl⟩ := List.mem_map.mp he
    exact h.named e'.1 e'.2 (Dict.get?_eq_some_iff.mpr he')
  unfold Envelope.program
  rw [if_neg (by simp), if_neg (by simp), hget, hentries, named?_map hnamed]
  exact congrArg (fun d => Except.ok (Program.mk d)) (Dict.ofList_of_perm (List.Perm.refl _))

/-! ## Bounds -/

theorem bounded_ofString {room : Nat} {s : String} (h : TextFits s) :
    (Item.ofString s).Bounded room := by
  refine .text ?_
  rw [Text.length_encode]
  exact h

theorem ofInt_cases {n : Int} (h : fits64 n = true) :
    ∃ k < 2 ^ 63, Item.ofInt n = .unsigned k ∨ Item.ofInt n = .negative k := by
  simp only [fits64, Bool.and_eq_true, decide_eq_true_eq, twoTo_eq] at h
  unfold Item.ofInt
  split
  · exact ⟨_, by omega, .inl rfl⟩
  · exact ⟨_, by omega, .inr rfl⟩

theorem bounded_ofInt {room : Nat} {n : Int} (h : fits64 n = true) : (Item.ofInt n).Bounded room := by
  obtain ⟨k, hk, hitem | hitem⟩ := ofInt_cases h <;> rw [hitem]
  · exact .unsigned (by omega)
  · exact .negative (by omega)

/-- The fields of a structure within the bounds, a few at most. -/
structure BoundedFields (room count : Nat) (fields : List (Nat × Item)) : Prop where
  keyed : Item.Keyed fields
  length_le : fields.length ≤ count
  bounded : ∀ f ∈ fields, f.2.Bounded room

namespace BoundedFields

variable {room count count' : Nat} {fields fields' : List (Nat × Item)}

theorem nil : BoundedFields room 0 [] := ⟨by simp, Nat.le_refl 0, fun _ h => nomatch h⟩

theorem cons {key : Nat} {value : Item} (hkey : key < 2 ^ 63) (hvalue : value.Bounded room)
    (h : BoundedFields room count fields) : BoundedFields room (count + 1) ((key, value) :: fields) :=
  ⟨Item.keyed_cons.mpr ⟨hkey, h.keyed⟩, Nat.succ_le_succ h.length_le,
    List.forall_mem_cons.mpr ⟨hvalue, h.bounded⟩⟩

theorem optional {key : Nat} {absent : Bool} {value : Item} (hkey : key < 2 ^ 63)
    (hvalue : value.Bounded room) (h : BoundedFields room count fields) :
    BoundedFields room (count + 1) (Wire.optional key absent value ++ fields) := by
  cases absent with
  | true => exact ⟨h.keyed, Nat.le_succ_of_le h.length_le, h.bounded⟩
  | false => exact h.cons hkey hvalue

theorem record (h : BoundedFields room count fields) (hcount : count ≤ Item.maxEntries) :
    (Wire.record fields).Bounded (room + 1) := by
  have hlength := Nat.le_trans h.length_le hcount
  refine .map (by simpa using hlength) ?_ ?_
  · intro e he
    obtain ⟨f, hf, rfl⟩ := List.mem_map.mp he
    exact .unsigned (Nat.lt_trans (h.keyed f hf) (by decide))
  · intro e he
    obtain ⟨f, hf, rfl⟩ := List.mem_map.mp he
    exact h.bounded f hf

end BoundedFields

theorem bounded_ofLiteral {room : Nat} {l : Literal} (h : TextFits l.string) :
    (ofLiteral l).Bounded (room + 1) := by
  have hkind := toNat_kind_lt l.kind
  unfold ofLiteral
  rw [List.append_assoc, ← List.append_nil (Wire.optional 4 _ _)]
  exact BoundedFields.record (.cons (by decide) (.unsigned (by omega))
    (.optional (by decide) (.float _) (.optional (by decide) (bounded_ofString h)
      (.optional (by decide) (.simple (by decide)) .nil)))) (by decide)

theorem bounded_ofInstruction {room : Nat} {i : Instruction} (h : i.Sized) :
    (ofInstruction i).Bounded (room + 2) := by
  have hop := number_lt i.op
  unfold ofInstruction
  rw [List.append_assoc, ← List.append_nil (Wire.optional 5 _ _)]
  exact BoundedFields.record (.cons (by decide) (.unsigned (by omega))
    (.cons (by decide) (bounded_ofLiteral h.string) (.optional (by decide) (bounded_ofString h.name)
      (.optional (by decide) (bounded_ofInt h.target)
        (.optional (by decide) (bounded_ofInt h.line) .nil))))) (by decide)

theorem bounded_ofMarker {room : Nat} {marker : Option String} (h : ∀ name ∈ marker, TextFits name) :
    (ofMarker marker).Bounded (room + 1) := by
  cases marker with
  | none => exact .simple (by decide)
  | some name =>
      exact BoundedFields.record (.cons (by decide) (bounded_ofString (h name rfl)) .nil) (by decide)

theorem bounded_ofList? {α : Type} {room : Nat} {value : α → Item} {items? : Option (List α)}
    (hlength : ∀ items ∈ items?, items.length ≤ Item.maxEntries)
    (h : ∀ items ∈ items?, ∀ a ∈ items, (value a).Bounded room) :
    (ofList? value items?).Bounded (room + 1) := by
  cases items? with
  | none => exact .simple (by decide)
  | some items =>
      refine .array (by simpa using hlength items rfl) ?_
      intro item hitem
      obtain ⟨a, ha, rfl⟩ := List.mem_map.mp hitem
      exact h items rfl a ha

theorem bounded_ofDict {α : Type} {room : Nat} {value : α → Item} {d : Dict α}
    (hlength : d.size ≤ Item.maxEntries) (hkeys : ∀ e ∈ d.entries, TextFits e.1)
    (hvalues : ∀ e ∈ d.entries, (value e.2).Bounded room) : (ofDict value d).Bounded (room + 1) := by
  have hsorted := List.mergeSort_perm d.toList (fun a b => keyBefore a.1 b.1)
  refine .map ?_ ?_ ?_
  · rw [List.length_map, hsorted.length_eq]
    exact hlength
  · intro e he
    obtain ⟨e', he', rfl⟩ := List.mem_map.mp he
    exact bounded_ofString (hkeys e' (hsorted.mem_iff.mp he'))
  · intro e he
    obtain ⟨e', he', rfl⟩ := List.mem_map.mp he
    exact hvalues e' (hsorted.mem_iff.mp he')

theorem bounded_ofFunction {room : Nat} {f : Function} (hsized : f.Sized) (hlimited : f.Limited) :
    (ofFunction f).Bounded (room + 4) := by
  refine BoundedFields.record (.cons (by decide) (bounded_ofString hsized.name)
    (.cons (by decide) ?_ (.cons (by decide) ?_ (.cons (by decide) ?_ .nil)))) (by decide)
  · have hparams : ∀ params ∈ f.params?, f.params = params := fun params h => by
      rw [Function.params, h, Option.getD_some]
    refine bounded_ofList? ?_ ?_
    · intro params h
      rw [← hparams params h]
      exact hlimited.params
    · intro params h name hname
      exact bounded_ofString (hsized.params name (hparams params h ▸ hname))
  · refine bounded_ofDict hlimited.scope (fun e he => (hsized.scope e he).1) ?_
    exact fun e he => bounded_ofMarker (hsized.scope e he).2
  · have hcode : ∀ items ∈ f.code?.map Array.toList, f.code.toList = items := by
      intro items h
      obtain ⟨code, hcode, rfl⟩ := Option.map_eq_some_iff.mp h
      rw [Function.code, hcode, Option.getD_some]
    refine bounded_ofList? ?_ ?_
    · intro items h
      rw [← hcode items h, Array.length_toList]
      exact hlimited.code
    · intro items h i hi
      exact bounded_ofInstruction (hsized.code i (hcode items h ▸ hi))

theorem bounded_ofProgram {p : Program} (h : p.Storable) (hlimited : p.Limited) :
    (ofProgram p).Bounded Item.maxNesting := by
  have hfunctions : (ofDict ofFunction p.functions).Bounded (25 + 5) := by
    refine bounded_ofDict hlimited.functions ?_ ?_
    · intro e he
      have hget := Dict.get?_eq_some_iff.mpr he
      rw [← h.named e.1 e.2 hget]
      exact (h.sized e.1 e.2 hget).name
    · intro e he
      have hget := Dict.get?_eq_some_iff.mpr he
      exact bounded_ofFunction (h.sized e.1 e.2 hget) (hlimited.function e.1 e.2 hget)
  have hprogram : (record [(1, ofDict ofFunction p.functions)]).Bounded (25 + 6) :=
    BoundedFields.record (.cons (by decide) hfunctions .nil) (by decide)
  have hmagic : TextFits magic := by decide
  exact BoundedFields.record (.cons (by decide) (bounded_ofString hmagic)
    (.cons (by decide) (.unsigned (by decide)) (.cons (by decide) hprogram .nil))) (by decide)

/-- A program comes back from its bytes, but for negative zeros. -/
theorem decode_encode_stored {p : Program} (h : p.Storable) (hlimited : p.Limited) :
    decode (encode p) = .ok p.stored := by
  unfold decode encode
  rw [Item.decode?_encode (bounded_ofProgram h hlimited), Option.bind_some,
    envelope?_ofProgram h.sized]
  exact program_envelope h

end LineScript.Wire
