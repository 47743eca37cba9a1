/-
# Programs too large to be read

A program may have longer lists than the reader accepts. Then its bytes are refused, but they are
never taken for anything else: what is written is read as what it was, or not at all. So a stored
program, of whatever size, never looks like bytes on which the reader breaks down.
-/

import LineScript.Proofs.HostileBytes

namespace LineScript.Wire

open LineScript.Code LineScript.Number
open LineScript.Text (Bytes)

namespace Item

/-! ## Items of any size -/

/-- Items with numbers of machine size and texts in one piece. Lists and maps may be as long and as
deep as they like. -/
inductive Regular : Item → Prop
  | unsigned {n : Nat} (hn : n < 2 ^ 64) : Regular (.unsigned n)
  | negative {n : Nat} (hn : n < 2 ^ 64) : Regular (.negative n)
  | text {content : Bytes} : Regular (.text [content])
  | array {items : List Item} (hitems : ∀ item ∈ items, Regular item) : Regular (.array items)
  | map {entries : List (Item × Item)} (hkeys : ∀ e ∈ entries, Regular e.1)
      (hvalues : ∀ e ∈ entries, Regular e.2) : Regular (.map entries)
  | simple {n : Nat} (hn : n < 24) : Regular (.simple n)
  | float (x : Float) : Regular (.float x)

/-- An item that is read from what is written of it if anything is. -/
def Kept (item : Item) : Prop :=
  ∀ fuel depth rest found, item? fuel depth (encode item ++ rest) = some found → found = (item, rest)

/-- There is no reading without fuel. -/
theorem kept_of_succ {item : Item}
    (h : ∀ fuel depth rest found, item? (fuel + 1) depth (encode item ++ rest) = some found →
      found = (item, rest)) : Kept item := by
  intro fuel depth rest found hread
  cases fuel with
  | zero => cases hread
  | succ fuel => exact h fuel depth rest found hread

theorem length_le_encodeItems (items : List Item) : items.length ≤ (encodeItems items).length := by
  induction items with
  | nil => exact Nat.le_refl 0
  | cons item items ih =>
      have hpos := length_encode_pos item
      rw [encodeItems, List.length_append, List.length_cons]
      omega

theorem length_encode_le_encodeItems {items : List Item} {item : Item} (h : item ∈ items) :
    (encode item).length ≤ (encodeItems items).length := by
  induction items with
  | nil => cases h
  | cons first items ih =>
      rw [encodeItems, List.length_append]
      obtain rfl | h := List.mem_cons.mp h
      · exact Nat.le_add_right _ _
      · exact Nat.le_trans (ih h) (Nat.le_add_left _ _)

theorem kept_items {items : List Item} (h : ∀ item ∈ items, Kept item) {fuel depth room : Nat}
    {rest : Bytes} {found : List Item × Bytes}
    (hread : items? fuel depth (some items.length) room (encodeItems items ++ rest) = some found) :
    found = (items, rest) := by
  induction items generalizing fuel room found with
  | nil =>
      cases fuel with
      | zero => cases hread
      | succ fuel =>
          cases hread
          rfl
  | cons item items ih =>
      cases fuel with
      | zero => cases hread
      | succ fuel =>
          simp only [encodeItems, List.length_cons, items?, List.append_assoc] at hread
          split at hread
          · cases hread
          · simp only [bind, Option.bind_eq_some_iff] at hread
            obtain ⟨first, hfirst, others, hothers, hfound⟩ := hread
            have hfirst := h item List.mem_cons_self _ _ _ _ hfirst
            subst hfirst
            have hothers := ih (fun i hi => h i (List.mem_cons_of_mem _ hi)) hothers
            subst hothers
            cases hfound
            rfl

/-- What is written of a regular item of machine size is read as that item or not at all. -/
theorem Regular.kept {item : Item} (h : Regular item) (hlength : (encode item).length < 2 ^ 64) :
    Kept item := by
  induction h with
  | @unsigned n hn =>
      refine kept_of_succ fun fuel depth rest found hread => ?_
      obtain ⟨code, hhead, -⟩ := @head?_head 0 n (by decide) hn (absurd · (by decide)) rest
      simp only [encode, item?, hhead, Option.some.injEq] at hread
      exact hread.symm
  | @negative n hn =>
      refine kept_of_succ fun fuel depth rest found hread => ?_
      obtain ⟨code, hhead, -⟩ := @head?_head 1 n (by decide) hn (absurd · (by decide)) rest
      simp only [encode, item?, hhead, Option.some.injEq] at hread
      exact hread.symm
  | @text content =>
      refine kept_of_succ fun fuel depth rest found hread => ?_
      simp only [encode, List.flatten_cons, List.flatten_nil, List.append_nil, List.length_append]
        at hlength
      obtain ⟨code, hhead, -⟩ := @head?_head 3 content.length (by decide) (by omega) (absurd · (by decide))
        (content ++ rest)
      simp only [encode, List.flatten_cons, List.flatten_nil, List.append_nil, List.append_assoc,
        item?, hhead, take?_append, Option.map_some, Option.some.injEq] at hread
      exact hread.symm
  | @array items hitems ih =>
      refine kept_of_succ fun fuel depth rest found hread => ?_
      simp only [encode, List.length_append] at hlength
      have hcount := length_le_encodeItems items
      obtain ⟨code, hhead, -⟩ := @head?_head 4 items.length (by decide) (by omega) (absurd · (by decide))
        (encodeItems items ++ rest)
      simp only [encode, List.append_assoc, item?, hhead] at hread
      split at hread
      · cases hread
      · obtain ⟨inner, hinner, rfl⟩ := Option.map_eq_some_iff.mp hread
        have hkept : ∀ item ∈ items, Kept item := fun item hitem => by
          have hle := length_encode_le_encodeItems hitem
          exact ih item hitem (by omega)
        rw [kept_items hkept hinner]
  | @map entries hkeys hvalues ihkeys ihvalues =>
      refine kept_of_succ fun fuel depth rest found hread => ?_
      simp only [encode, encodeEntries_eq, List.length_append] at hlength
      have hflat := length_flattened entries
      have hcount := length_le_encodeItems (flattened entries)
      obtain ⟨code, hhead, -⟩ := @head?_head 5 entries.length (by decide) (by omega) (absurd · (by decide))
        (encodeItems (flattened entries) ++ rest)
      simp only [encode, encodeEntries_eq, List.append_assoc, item?, hhead] at hread
      split at hread
      · cases hread
      · simp only [Option.map_some, bind, Option.bind_eq_some_iff] at hread
        obtain ⟨inner, hinner, pairs, hpairs, hfound⟩ := hread
        have hkept : ∀ item ∈ flattened entries, Kept item := by
          intro item hitem
          have hle := length_encode_le_encodeItems hitem
          obtain ⟨e, he, rfl | rfl⟩ := mem_flattened hitem
          · exact ihkeys e he (by omega)
          · exact ihvalues e he (by omega)
        rw [← hflat] at hinner
        have hinner := kept_items hkept hinner
        subst hinner
        rw [pairs?_flattened] at hpairs
        cases hpairs
        cases hfound
        rfl
  | @simple n hn =>
      refine kept_of_succ fun fuel depth rest found hread => ?_
      obtain ⟨code, hhead, hcode⟩ := @head?_head 7 n (by decide) (by omega) (fun _ => hn) rest
      have hcode := hcode rfl
      simp only [encode, item?, hhead] at hread
      rw [if_neg (by omega), if_neg (by omega), if_neg (by omega)] at hread
      cases hread
      rfl
  | float x =>
      refine kept_of_succ fun fuel depth rest found hread => ?_
      obtain ⟨code, layout, bits, hlayout, hnumber, hhead⟩ := head?_encodeFloat x rest
      simp only [encode, item?, hhead] at hread
      simp only [layouts, List.mem_cons, Prod.mk.injEq, List.not_mem_nil, or_false] at hlayout
      rcases hlayout with ⟨rfl, rfl⟩ | ⟨rfl, rfl⟩ | ⟨rfl, rfl⟩ <;> simpa [hnumber, eq_comm] using hread

/-- The bytes of an item hold that item or are refused. -/
theorem Regular.decode?_encode {item : Item} (h : Regular item)
    (hlength : (encode item).length < 2 ^ 64) :
    decode? (encode item) = some item ∨ decode? (encode item) = none := by
  unfold decode?
  split
  · rename_i found hread
    rw [← List.append_nil (encode item)] at hread
    cases h.kept hlength _ _ _ _ hread
    exact .inl rfl
  · exact .inr rfl

end Item

/-! ## Programs of any size -/

theorem regular_ofString (s : String) : (Item.ofString s).Regular := .text

theorem regular_ofInt {n : Int} (h : fits64 n = true) : (Item.ofInt n).Regular := by
  obtain ⟨k, hk, hitem | hitem⟩ := ofInt_cases h <;> rw [hitem]
  · exact .unsigned (by omega)
  · exact .negative (by omega)

/-- The fields of a structure: a few, with regular values. -/
def RegularFields (fields : List (Nat × Item)) : Prop := ∀ f ∈ fields, f.1 < 6 ∧ f.2.Regular

namespace RegularFields

variable {fields : List (Nat × Item)} {key : Nat} {value : Item}

theorem nil : RegularFields [] := nofun

theorem cons (hkey : key < 6) (hvalue : value.Regular) (h : RegularFields fields) :
    RegularFields ((key, value) :: fields) := List.forall_mem_cons.mpr ⟨⟨hkey, hvalue⟩, h⟩

theorem optional {absent : Bool} (hkey : key < 6) (hvalue : value.Regular) (h : RegularFields fields) :
    RegularFields (Wire.optional key absent value ++ fields) := by
  cases absent with
  | true => exact h
  | false => exact h.cons hkey hvalue

theorem record (h : RegularFields fields) : (Wire.record fields).Regular := by
  refine .map ?_ ?_
  · intro e he
    obtain ⟨f, hf, rfl⟩ := List.mem_map.mp he
    exact .unsigned (Nat.lt_trans (h f hf).1 (by decide))
  · intro e he
    obtain ⟨f, hf, rfl⟩ := List.mem_map.mp he
    exact (h f hf).2

end RegularFields

theorem regular_ofLiteral (l : Literal) : (ofLiteral l).Regular := by
  have hkind := toNat_kind_lt l.kind
  unfold ofLiteral
  rw [List.append_assoc, ← List.append_nil (Wire.optional 4 _ _)]
  exact RegularFields.record (.cons (by decide) (.unsigned (by omega))
    (.optional (by decide) (.float _) (.optional (by decide) (regular_ofString _)
      (.optional (by decide) (.simple (by decide)) .nil))))

theorem regular_ofInstruction {i : Instruction} (h : i.Sized) : (ofInstruction i).Regular := by
  have hop := number_lt i.op
  unfold ofInstruction
  rw [List.append_assoc, ← List.append_nil (Wire.optional 5 _ _)]
  exact RegularFields.record (.cons (by decide) (.unsigned (by omega))
    (.cons (by decide) (regular_ofLiteral _) (.optional (by decide) (regular_ofString _)
      (.optional (by decide) (regular_ofInt h.target)
        (.optional (by decide) (regular_ofInt h.line) .nil)))))

theorem regular_ofMarker (marker : Option String) : (ofMarker marker).Regular := by
  cases marker with
  | none => exact .simple (by decide)
  | some name => exact RegularFields.record (.cons (by decide) (regular_ofString name) .nil)

theorem regular_ofList? {α : Type} {value : α → Item} {items? : Option (List α)}
    (h : ∀ items ∈ items?, ∀ a ∈ items, (value a).Regular) : (ofList? value items?).Regular := by
  cases items? with
  | none => exact .simple (by decide)
  | some items =>
      refine .array fun item hitem => ?_
      obtain ⟨a, ha, rfl⟩ := List.mem_map.mp hitem
      exact h items rfl a ha

theorem regular_ofDict {α : Type} {value : α → Item} {d : Dict α}
    (hvalues : ∀ e ∈ d.entries, (value e.2).Regular) : (ofDict value d).Regular := by
  refine .map ?_ ?_
  · intro e he
    obtain ⟨e', he', rfl⟩ := List.mem_map.mp he
    exact regular_ofString _
  · intro e he
    obtain ⟨e', he', rfl⟩ := List.mem_map.mp he
    exact hvalues e' ((List.mergeSort_perm d.toList _).mem_iff.mp he')

theorem regular_ofFunction {f : Function} (h : f.Sized) : (ofFunction f).Regular := by
  refine RegularFields.record (.cons (by decide) (regular_ofString _) (.cons (by decide)
    (regular_ofList? fun _ _ _ _ => regular_ofString _) (.cons (by decide)
      (regular_ofDict fun _ _ => regular_ofMarker _) (.cons (by decide)
        (regular_ofList? fun items hitems i hi => ?_) .nil))))
  obtain ⟨code, hcode, rfl⟩ := Option.map_eq_some_iff.mp hitems
  refine regular_ofInstruction (h.code i ?_)
  rw [Function.code, hcode]
  exact hi

theorem regular_ofProgram {p : Program} (h : ∀ name f, p.functions.get? name = some f → f.Sized) :
    (ofProgram p).Regular := by
  have hfunctions : (ofDict ofFunction p.functions).Regular := regular_ofDict fun e he =>
    regular_ofFunction (h e.1 e.2 (Dict.get?_eq_some_iff.mpr he))
  exact RegularFields.record (.cons (by decide) (regular_ofString _) (.cons (by decide)
    (.unsigned (by decide)) (.cons (by decide)
      (RegularFields.record (.cons (by decide) hfunctions .nil)) .nil)))

/-- On a stored program the reader never breaks down: its functions are all there. -/
theorem decode_encode_ne_missing {p : Program}
    (h : ∀ name f, p.functions.get? name = some f → f.Sized) (hlength : (encode p).length < 2 ^ 64)
    (key : String) : decode (encode p) ≠ .error (.missing key) := by
  intro hmissing
  unfold decode at hmissing
  obtain hread | hread := (regular_ofProgram h).decode?_encode hlength
  · rw [encode, hread, Option.bind_some, envelope?_ofProgram h] at hmissing
    obtain ⟨hempty, -⟩ := Envelope.program_eq_missing hmissing
    rw [Dict.get?_map] at hempty
    obtain ⟨f, -, hf⟩ := Option.map_eq_some_iff.mp hempty
    cases hf
  · rw [encode, hread] at hmissing
    cases hmissing

end LineScript.Wire
