/-
# Keys that tell cached programs apart

The key of a program is the digest of its key material: the format version, the script, and a line for
each host function with its name and its signature. No length is written down. A script may hold any
bytes, those of such lines included, and only null bytes stand between the parts.

The material can be taken apart all the same. Where two materials are equal and one script is longer
than the other, the longer one ends inside the lines of the other material, behind a null byte that
separates a name from its signature. So the lines that follow the longer script begin within a
signature, where a line break comes before the next null byte. Lines that begin with a name have it the
other way round.
-/

import LineScript.Proofs.CacheHistories
import LineScript.Proofs.EncodedTexts

namespace LineScript

open LineScript.Text (Bytes)

/-! ## Lines of key material -/

namespace KeyLines

/-- Bytes without the two that separate names, signatures and lines. -/
def Plain (text : Bytes) : Prop := 0 ∉ text ∧ 10 ∉ text

/-- The line of a host function. -/
def line (e : Bytes × Bytes) : Bytes := e.1 ++ 0 :: (e.2 ++ [10])

/-- The lines of some host functions. -/
def lines (entries : List (Bytes × Bytes)) : Bytes := entries.flatMap line

/-- The names and the signatures of the entries are plain. -/
def AllPlain (entries : List (Bytes × Bytes)) : Prop := ∀ e ∈ entries, Plain e.1 ∧ Plain e.2

/-- The first byte that separates something. -/
def firstSeparator? (text : Bytes) : Option UInt8 := text.find? fun b => b = 0 || b = 10

variable {a b x y : Bytes} {e : Bytes × Bytes} {entries entries' : List (Bytes × Bytes)}

theorem lines_cons (e : Bytes × Bytes) (entries : List (Bytes × Bytes)) :
    lines (e :: entries) = e.1 ++ 0 :: (e.2 ++ 10 :: lines entries) := by
  simp [lines, line]

theorem Plain.firstSeparator?_append (h : Plain a) (b : Bytes) :
    firstSeparator? (a ++ b) = firstSeparator? b := by
  have hnone : firstSeparator? a = none := by
    refine List.find?_eq_none.mpr fun c hc => ?_
    have hnull : c ≠ 0 := ne_of_mem_of_not_mem hc h.1
    have hbreak : c ≠ 10 := ne_of_mem_of_not_mem hc h.2
    simp [hnull, hbreak]
  rw [firstSeparator?, List.find?_append]
  exact congrArg (·.or (firstSeparator? b)) hnone

/-- In lines the first separator stands behind a name. -/
theorem firstSeparator?_lines_ne (h : AllPlain entries) : firstSeparator? (lines entries) ≠ some 10 := by
  cases entries with
  | nil => simp [firstSeparator?, lines]
  | cons e rest =>
      rw [lines_cons, (h e List.mem_cons_self).1.firstSeparator?_append]
      simp [firstSeparator?]

/-- A separator lies behind what holds none. -/
theorem exists_of_append_eq {s : UInt8} (h : a ++ b = x ++ s :: y) (ha : s ∉ a) :
    ∃ x', x = a ++ x' ∧ b = x' ++ s :: y := by
  rcases List.append_eq_append_iff.mp h with ⟨x', rfl, rfl⟩ | ⟨a', rfl, hcons⟩
  · exact ⟨x', rfl, rfl⟩
  · cases a' with
    | nil => exact ⟨[], by simp, by simpa using hcons.symm⟩
    | cons s' a' =>
        cases hcons
        exact absurd (List.mem_append_right x List.mem_cons_self) ha

/-- Behind a null byte in lines the next separator is a line break: it stands behind a signature. -/
theorem firstSeparator?_of_lines_eq (h : AllPlain entries) (heq : lines entries = x ++ 0 :: y) :
    firstSeparator? y = some 10 := by
  induction entries generalizing x with
  | nil => exact absurd heq.symm (List.append_ne_nil_of_right_ne_nil x (List.cons_ne_nil 0 y))
  | cons e rest ih =>
      obtain ⟨⟨hname, hsignature⟩, hrest⟩ := List.forall_mem_cons.mp h
      rw [lines_cons] at heq
      obtain ⟨afterName, -, heq⟩ := exists_of_append_eq heq hname.1
      rcases List.cons_eq_append_iff.mp heq with ⟨-, hcons⟩ | ⟨inLine, -, heq⟩
      · cases hcons
        rw [hsignature.firstSeparator?_append]
        rfl
      obtain ⟨afterSignature, -, heq⟩ := exists_of_append_eq heq hsignature.1
      rcases List.cons_eq_append_iff.mp heq with ⟨-, hcons⟩ | ⟨later, -, heq⟩
      · cases hcons
      · exact ih hrest heq

/-- What ends at its first separator is told apart from what follows. -/
theorem eq_of_append_cons_eq {s : UInt8} (h : a ++ s :: x = b ++ s :: y) (ha : s ∉ a) (hb : s ∉ b) :
    a = b ∧ x = y := by
  obtain ⟨more, rfl, hcons⟩ := exists_of_append_eq h ha
  cases more with
  | nil =>
      cases hcons
      exact ⟨(List.append_nil a).symm, rfl⟩
  | cons s' more =>
      cases hcons
      exact absurd (List.mem_append_right a List.mem_cons_self) hb

/-- Lines tell what they list. -/
theorem eq_of_lines_eq (h : AllPlain entries) (h' : AllPlain entries')
    (heq : lines entries = lines entries') : entries = entries' := by
  induction entries generalizing entries' with
  | nil =>
      cases entries' with
      | nil => rfl
      | cons e rest =>
          rw [lines_cons] at heq
          exact absurd heq.symm (List.append_ne_nil_of_right_ne_nil e.1 (List.cons_ne_nil 0 _))
  | cons e rest ih =>
      cases entries' with
      | nil =>
          rw [lines_cons] at heq
          exact absurd heq (List.append_ne_nil_of_right_ne_nil e.1 (List.cons_ne_nil 0 _))
      | cons e' rest' =>
          obtain ⟨⟨hname, hsignature⟩, hrest⟩ := List.forall_mem_cons.mp h
          obtain ⟨⟨hname', hsignature'⟩, hrest'⟩ := List.forall_mem_cons.mp h'
          rw [lines_cons, lines_cons] at heq
          obtain ⟨hnames, heq⟩ := eq_of_append_cons_eq heq hname.1 hname'.1
          obtain ⟨hsignatures, heq⟩ := eq_of_append_cons_eq heq hsignature.2 hsignature'.2
          rw [Prod.ext hnames hsignatures, ih hrest hrest' heq]

/-- Lines do not begin within other lines, behind a null byte. -/
theorem eq_nil_of_lines_eq (h : AllPlain entries) (h' : AllPlain entries')
    (heq : 0 :: lines entries = x ++ 0 :: lines entries') : x = [] ∧ entries = entries' := by
  rcases List.cons_eq_append_iff.mp heq with ⟨rfl, hcons⟩ | ⟨inLines, rfl, hinside⟩
  · exact ⟨rfl, eq_of_lines_eq h h' (List.cons.inj hcons).2.symm⟩
  · exact absurd (firstSeparator?_of_lines_eq h hinside) (firstSeparator?_lines_ne h')

/-- A script is told apart from the lines behind it, whatever bytes it holds. -/
theorem eq_of_source_eq {source source' : Bytes} (h : AllPlain entries) (h' : AllPlain entries')
    (heq : source ++ 0 :: lines entries = source' ++ 0 :: lines entries') :
    source = source' ∧ entries = entries' := by
  rcases List.append_eq_append_iff.mp heq with ⟨more, rfl, hmore⟩ | ⟨more, rfl, hmore⟩
  · obtain ⟨rfl, rfl⟩ := eq_nil_of_lines_eq h h' hmore
    simp
  · obtain ⟨rfl, rfl⟩ := eq_nil_of_lines_eq h' h hmore
    simp

end KeyLines

/-! ## Keys in hexadecimal -/

namespace Text

theorem hexByte_read (b : UInt8) : ∃ high low, hexByte b = [high, low] ∧
    ∃ h l, hexValue? high = some h ∧ hexValue? low = some l ∧ UInt8.ofNat (16 * h + l) = b := by
  have hdigit : ∀ n < 16, hexValue? (hexDigit n) = some n := by decide
  have hb : b.toNat < 256 := b.toNat_lt
  refine ⟨hexDigit (b.toNat / 16 % 16), hexDigit (b.toNat % 16), rfl, b.toNat / 16 % 16,
    b.toNat % 16, hdigit _ (by omega), hdigit _ (by omega), ?_⟩
  have hvalue : 16 * (b.toNat / 16 % 16) + b.toNat % 16 = b.toNat := by omega
  rw [hvalue, UInt8.ofNat_toNat]

/-- Bytes are read back from their hexadecimal text. -/
theorem ofHex?_toHex (bytes : Bytes) : ofHex? (toHex bytes) = some bytes := by
  rw [ofHex?, toHex, String.toList_ofList]
  induction bytes with
  | nil => rfl
  | cons b rest ih =>
      obtain ⟨high, low, hbyte, h, l, hhigh, hlow, hvalue⟩ := hexByte_read b
      rw [List.flatMap_cons, hbyte]
      simp only [List.cons_append, List.nil_append, ofHexChars?, hhigh, hlow, ih]
      exact congrArg (fun b => some (b :: rest)) hvalue

theorem toHex_injective : Function.Injective toHex := by
  intro bytes bytes' h
  have hread := ofHex?_toHex bytes
  rw [h, ofHex?_toHex] at hread
  exact (Option.some.inj hread).symm

end Text

namespace Cache

open LineScript.Code
open KeyLines (Plain AllPlain lines)

/-! ## The key material of scripts -/

/-- A text without null characters and line breaks. -/
def Unbroken (s : String) : Prop := '\x00' ∉ s.toList ∧ '\n' ∉ s.toList

instance (s : String) : Decidable (Unbroken s) :=
  inferInstanceAs (Decidable ('\x00' ∉ s.toList ∧ '\n' ∉ s.toList))

/-- The names and the signatures of some host functions hold neither null characters nor line breaks. -/
def Legible (natives : Dict String) : Prop :=
  ∀ e ∈ natives.toList, Unbroken e.1 ∧ Unbroken e.2

instance (natives : Dict String) : Decidable (Legible natives) :=
  inferInstanceAs (Decidable (∀ e ∈ natives.toList, Unbroken e.1 ∧ Unbroken e.2))

/-- The bytes of a name and a signature. -/
def encoded (e : String × String) : Bytes × Bytes := (Text.encode e.1, Text.encode e.2)

theorem encoded_injective : Function.Injective encoded := by
  intro e e' h
  ext1
  · exact Text.encode_injective (congrArg Prod.fst h)
  · exact Text.encode_injective (congrArg Prod.snd h)

theorem Unbroken.plain_encode {s : String} (h : Unbroken s) : Plain (Text.encode s) := by
  constructor <;> intro hmem
  · obtain ⟨c, hc, hcode⟩ := Text.exists_char_of_mem_encode hmem (by decide)
    obtain rfl : c = '\x00' := Char.ext (UInt32.toNat_inj.mp hcode)
    exact h.1 hc
  · obtain ⟨c, hc, hcode⟩ := Text.exists_char_of_mem_encode hmem (by decide)
    obtain rfl : c = '\n' := Char.ext (UInt32.toNat_inj.mp hcode)
    exact h.2 hc

theorem Legible.allPlain {natives : Dict String} (h : Legible natives) :
    AllPlain (natives.toList.map encoded) := by
  intro e he
  obtain ⟨e, hmem, rfl⟩ := List.mem_map.mp he
  exact ⟨(h e hmem).1.plain_encode, (h e hmem).2.plain_encode⟩

theorem material_eq (source : Bytes) (natives : Dict String) :
    material source natives = Text.encode ("luiggi/" ++ toString Wire.formatVersion) ++
      0 :: (source ++ 0 :: lines (natives.toList.map encoded)) := by
  have hline : ∀ e : String × String, nativeMaterial e.1 e.2 = KeyLines.line (encoded e) := by
    intro e
    have hbreak : Text.encode "\n" = [10] := by decide
    simp [nativeMaterial, KeyLines.line, encoded, hbreak]
  have hlines : (natives.toList.flatMap fun e => nativeMaterial e.1 e.2) =
      lines (natives.toList.map encoded) := by
    rw [lines, List.flatMap_map]
    exact congrArg (natives.toList.flatMap ·) (funext hline)
  rw [← hlines]
  simp [material]

/-- The key material tells the script and the host functions. -/
theorem eq_of_material_eq {source source' : Bytes} {natives natives' : Dict String}
    (h : Legible natives) (h' : Legible natives')
    (heq : material source natives = material source' natives') :
    source = source' ∧ natives = natives' := by
  rw [material_eq, material_eq] at heq
  obtain ⟨hsource, hentries⟩ := KeyLines.eq_of_source_eq h.allPlain h'.allPlain
    (List.cons.inj (List.append_cancel_left heq)).2
  exact ⟨hsource, Dict.ext (List.map_injective_iff.mpr encoded_injective hentries)⟩

/-! ## Digests without collisions -/

/-- The key material of a script and its signatures. -/
def subjectMaterial (a : String × Dict String) : Bytes := material (Text.encode a.1) a.2

/-- The digest tells the key materials of these scripts and signatures apart. -/
def CollisionFree (subjects : List (String × Dict String)) : Prop :=
  ∀ a ∈ subjects, ∀ b ∈ subjects,
    Digest.blake2b (subjectMaterial a) = Digest.blake2b (subjectMaterial b) →
      subjectMaterial a = subjectMaterial b

/-- Where the digest has no collisions, no two scripts or sets of host functions share a key. -/
theorem apart_of_collisionFree {subjects : List (String × Dict String)}
    (hlegible : ∀ a ∈ subjects, Legible a.2) (h : CollisionFree subjects) :
    Service.Apart subjects := by
  intro a ha b hb hkey
  have hmaterial := h a ha b hb (Text.toHex_injective hkey)
  obtain ⟨hsource, hnatives⟩ := eq_of_material_eq (hlegible a ha) (hlegible b hb) hmaterial
  exact Prod.ext (Text.encode_injective hsource) hnatives

/-! ## Programs stored under keys -/

/-- Every row was stored for a script with that key. -/
def Sourced (c : Cache) (history : List Operation) : Prop :=
  ∀ k row, c.rows.get? k = some row → ∃ source natives p,
    .put source natives (some p) ∈ history ∧ key source natives = k ∧ storedRow p = row

section

variable {c c' : Cache} {history : List Operation}

theorem Sourced.append (h : c.Sourced history) (o : Operation)
    (hrows : ∀ k row, c'.rows.get? k = some row → c.rows.get? k = some row) :
    c'.Sourced (history ++ [o]) := by
  intro k row hrow
  obtain ⟨source, natives, p, hmem, hsource⟩ := h k row (hrows k row hrow)
  exact ⟨source, natives, p, List.mem_append_left [o] hmem, hsource⟩

theorem Sourced.put (h : c.Sourced history) (source : String) (natives : Dict String)
    (p : Code.Program) :
    Sourced { c with rows := c.rows.insert (key source natives) (storedRow p) }
      (history ++ [.put source natives (some p)]) := by
  apply Dict.forall_get?_insert
  · exact ⟨source, natives, p, List.mem_append_right _ List.mem_cons_self, rfl, rfl⟩
  · intro k row hrow
    obtain ⟨source', natives', p', hmem, hsource⟩ := h k row hrow
    exact ⟨source', natives', p', List.mem_append_left _ hmem, hsource⟩

/-- A lookup adds no row. -/
theorem get?_rows_get {source : String} {natives : Dict String} {k : String} {row : Row}
    (h : (c.get source natives).2.rows.get? k = some row) : c.rows.get? k = some row := by
  unfold get at h
  split at h
  · exact h
  dsimp only at h
  split at h
  · exact h
  split at h
  · exact h
  · by_cases hk : k = key source natives
    · rw [hk, Dict.get?_erase_self] at h
      cases h
    · rwa [Dict.get?_erase_of_ne _ hk] at h
  · exact h

/-- Each operation leaves rows that were stored. -/
theorem Sourced.apply (h : c.Sourced history) (o : Operation) :
    (c.apply o).Sourced (history ++ [o]) := by
  cases o with
  | get source natives => exact h.append _ fun _ _ => get?_rows_get
  | put source natives p? =>
      cases p? with
      | none => exact h.append _ fun _ _ hrow => hrow
      | some p =>
          cases hopen : c.isOpen with
          | false =>
              refine h.append _ fun _ _ hrow => ?_
              simpa [Cache.apply, Cache.put, plant, hopen] using hrow
          | true => simpa [Cache.apply, Cache.put, plant, hopen, storedRow] using h.put source natives p

theorem sourced_after (history : List Operation) : (after history).Sourced history := by
  induction history using List.reverseRecOn with
  | nil => exact fun k row hrow => by cases hrow
  | append_singleton history o ih =>
      rw [after, List.foldl_append]
      exact ih.apply o

theorem decode_of_program? {row : Row} {natives : Dict String} {q : Program}
    (h : row.program? natives = some (some q)) : Wire.decode row.data = .ok q := by
  unfold Row.program? at h
  split at h
  · cases h
  split at h
  · cases h
  · cases h
  rename_i p hdecode
  split at h
  · cases h
  split at h
  · cases h
    exact hdecode
  · cases h

/-- A hit reads a row under the key of what is looked up. -/
theorem exists_row_of_hit {source : String} {natives : Dict String} {q : Program}
    (h : (c.get source natives).1 = .hit q) :
    ∃ row, c.rows.get? (key source natives) = some row ∧ Wire.decode row.data = .ok q := by
  unfold get at h
  split at h
  · cases h
  dsimp only at h
  split at h
  · cases h
  rename_i row hrow
  split at h
  · cases h
  · cases h
  · rename_i p hprogram
    cases h
    exact ⟨row, hrow, decode_of_program? hprogram⟩

end

/-! ## Distinct inputs have distinct keys -/

/-- The key material is a faithful picture of what a program is compiled from. Equal materials come
from equal scripts, whatever their bytes, and from the same host functions, if no name and no signature
holds a null character or a line break; and the order in which the host functions are listed does not
matter. So where the digest has no collisions, a cache never serves a program for anything but the
script and the signatures it was stored for: after any operations, a lookup that finds a program finds
one that was stored for just what is looked up. -/
theorem distinct_inputs_apart :
    (∀ (source source' : Bytes) (natives natives' : Dict String), Legible natives → Legible natives' →
      material source natives = material source' natives' → source = source' ∧ natives = natives') ∧
    (∀ (source : Bytes) (natives : Dict String) (listed : List (String × String)),
      listed.Perm natives.toList → material source (Dict.ofList listed) = material source natives) ∧
    ∀ (history : List Operation) (source : String) (natives : Dict String) (q : Program),
      (∀ a ∈ (source, natives) :: history.map Operation.subject, Legible a.2) →
      CollisionFree ((source, natives) :: history.map Operation.subject) →
      ((after history).get source natives).1 = .hit q →
        ∃ p, .put source natives (some p) ∈ history ∧ Wire.decode (Wire.encode p) = .ok q := by
  refine ⟨fun _ _ _ _ => eq_of_material_eq, fun source natives listed h => ?_, ?_⟩
  · rw [Dict.ofList_of_perm h]
  · intro history source natives q hlegible hfree hhit
    have hapart := apart_of_collisionFree hlegible hfree
    obtain ⟨row, hrow, hdecode⟩ := exists_row_of_hit hhit
    obtain ⟨source', natives', p, hmem, hkey, rfl⟩ := sourced_after history _ row hrow
    have hsubject : (source', natives') ∈ history.map Operation.subject :=
      List.mem_map.mpr ⟨_, hmem, rfl⟩
    cases hapart _ (List.mem_cons_of_mem _ hsubject) _ List.mem_cons_self hkey
    exact ⟨p, hmem, hdecode⟩

/-- A script whose text goes on like the lines of host functions has other key material than the script
it begins with has for these host functions; and of two programs stored for one script the one with the
right host functions is found. -/
theorem distinct_inputs_apart_log :
    let natives : Dict String := Dict.insert ∅ "log" "log(x)"
    let history : List Operation :=
      [.put "log(0)" natives (some callLog), .put "log(0)" ∅ (some ⟨∅⟩)]
    material (Text.encode "log(0)\x00log\x00log(x)\n") ∅ ≠ material (Text.encode "log(0)") natives ∧
      ((after history).get "log(0)" natives).1 = .hit callLog.stored ∧
      ∃ p, .put "log(0)" natives (some p) ∈ history ∧
        Wire.decode (Wire.encode p) = .ok callLog.stored := by
  intro natives history
  obtain ⟨hmaterial, -, hserved⟩ := distinct_inputs_apart
  have hnatives : Legible natives := by decide
  have hnone : Legible ∅ := by decide
  have hkeys : key "log(0)" natives ≠ key "log(0)" ∅ := by decide +kernel
  have hsubjects : ∀ a ∈ ("log(0)", natives) :: history.map Operation.subject,
      a = ("log(0)", natives) ∨ a = ("log(0)", ∅) := by
    simp [history, Operation.subject]
  have hfree : CollisionFree (("log(0)", natives) :: history.map Operation.subject) := by
    intro a ha b hb hdigest
    have hkey : key a.1 a.2 = key b.1 b.2 := congrArg Text.toHex hdigest
    rcases hsubjects a ha with rfl | rfl <;> rcases hsubjects b hb with rfl | rfl
    · rfl
    · exact absurd hkey hkeys
    · exact absurd hkey.symm hkeys
    · rfl
  have hrows : (after history).rows = ((∅ : Dict Row).insert (key "log(0)" natives)
      (storedRow callLog)).insert (key "log(0)" ∅) (storedRow ⟨∅⟩) := by
    simp [after, history, Cache.apply, Cache.put, plant, storedRow]
  have hrow : (after history).rows.get? (key "log(0)" natives) = some (storedRow callLog) := by
    rw [hrows, Dict.get?_insert_of_ne _ _ hkeys, Dict.get?_insert_self]
  have hread : Wire.decode (Wire.encode callLog) = .ok callLog.stored :=
    Wire.decode_encode_stored (by decide +kernel) (by decide +kernel)
  have hserves : Serves natives callLog callLog.stored :=
    ⟨hread, Dict.toList (Dict.insert ∅ "log" 1), by decide +kernel, by decide +kernel⟩
  have hhit : ((after history).get "log(0)" natives).1 = .hit callLog.stored := by
    obtain ⟨found?, hprogram, hfound⟩ := program?_storedRow (p := callLog) natives
      (Program.forall_get?_iff.mpr (by decide +kernel)) (by decide +kernel)
    rw [get_of_isOpen rfl, hrow]
    dsimp only
    rw [hprogram, (hfound callLog.stored).mpr hserves]
  refine ⟨fun heq => ?_, hhit, hserved history "log(0)" natives callLog.stored ?_ hfree hhit⟩
  · exact absurd (hmaterial _ _ _ _ hnone hnatives heq).1 (by decide)
  · intro a ha
    rcases hsubjects a ha with rfl | rfl
    · exact hnatives
    · exact hnone

end Cache

end LineScript
