/-
# Data items through their bytes

What is written of an item is read as that item, whatever follows it, as long as the item keeps
to the bounds of reading: numbers below `2 ^ 64`, texts in one piece, lists and maps up to the
greatest size and nested no deeper than is read. The fuel of the reader is twice the number of
bytes, one unit for each item and one for each place in a list.
-/

import LineScript.Proofs.FloatLayouts
import LineScript.Wire.Item

namespace LineScript.Wire

open LineScript.Number LineScript.Number.Dyadic
open LineScript.Text (Bytes)

/-! ## Heads -/

theorem bigEndian?_add (width more n : Nat) (input : Bytes) :
    bigEndian? (width + more) n input
      = (bigEndian? width n input).bind fun (n, rest) => bigEndian? more n rest := by
  induction width generalizing n input with
  | zero => simp [bigEndian?]
  | succ width ih =>
      rw [Nat.succ_add]
      cases input with
      | nil => rfl
      | cons b rest => exact ih _ _

/-- A number is read from as many bytes as it fits in. -/
theorem bigEndian?_bigEndian (width before : Nat) {n : Nat} (hn : n < 256 ^ width) (rest : Bytes) :
    bigEndian? width before (bigEndian width n ++ rest) = some (before * 256 ^ width + n, rest) := by
  induction width generalizing n rest with
  | zero =>
      have hzero : n = 0 := by simpa using hn
      simp [bigEndian?, bigEndian, hzero]
  | succ width ih =>
      have hquotient : n / 256 < 256 ^ width := Nat.div_lt_of_lt_mul (by rwa [Nat.pow_succ'] at hn)
      rw [bigEndian, List.append_assoc, bigEndian?_add, ih hquotient]
      have hbyte : n % 256 % 2 ^ 8 = n % 256 := by omega
      simp only [Option.bind_some, List.singleton_append, bigEndian?, UInt8.toNat_ofNat', hbyte]
      have hvalue : 256 * (before * 256 ^ width + n / 256) + n % 256
          = before * 256 ^ (width + 1) + n := by
        rw [Nat.mul_add, Nat.pow_succ', Nat.mul_left_comm, Nat.add_assoc, Nat.div_add_mod]
      rw [hvalue]

theorem toNat_lead {major code : Nat} (hmajor : major < 8) (hcode : code < 32) :
    (UInt8.ofNat (32 * major + code)).toNat / 32 = major
      ∧ (UInt8.ofNat (32 * major + code)).toNat % 32 = code := by
  rw [UInt8.toNat_ofNat']
  omega

/-- The widths that length codes stand for. -/
def widths : List (Nat × Nat) := [(24, 1), (25, 2), (26, 4), (27, 8)]

/-- A head with its number in bytes of their own. -/
theorem head?_wide {major code width n : Nat} (hmajor : major < 8) (hwidth : (code, width) ∈ widths)
    (hsimple : major = 7 → code ≠ 24) (hn : n < 256 ^ width) (rest : Bytes) :
    head? (UInt8.ofNat (32 * major + code) :: (bigEndian width n ++ rest))
      = some (⟨major, code, some n⟩, rest) := by
  have hnumber := bigEndian?_bigEndian width 0 hn rest
  rw [Nat.zero_mul, Nat.zero_add] at hnumber
  have hcode : code < 32 := by
    simp only [widths, List.mem_cons, Prod.mk.injEq, List.not_mem_nil, or_false] at hwidth
    omega
  obtain ⟨hlead, hlow⟩ := toNat_lead hmajor hcode
  simp only [head?, hlead, hlow]
  simp only [widths, List.mem_cons, Prod.mk.injEq, List.not_mem_nil, or_false] at hwidth
  rcases hwidth with ⟨rfl, rfl⟩ | ⟨rfl, rfl⟩ | ⟨rfl, rfl⟩ | ⟨rfl, rfl⟩
  · have hne : major ≠ 7 := fun h => hsimple h rfl
    simp [hnumber, hne]
  all_goals simp [hnumber]

/-- The head of an item is read as what it announces. -/
theorem head?_head {major n : Nat} (hmajor : major < 8) (hn : n < 2 ^ 64)
    (hsimple : major = 7 → n < 24) (rest : Bytes) :
    ∃ code, head? (head major n ++ rest) = some (⟨major, code, some n⟩, rest)
      ∧ (major = 7 → code = n) := by
  simp only [head, twoTo_eq]
  split
  · rename_i hsmall
    obtain ⟨hlead, hlow⟩ := @toNat_lead major n hmajor (by omega)
    refine ⟨n, ?_, fun _ => rfl⟩
    simp only [List.singleton_append, head?, hlead, hlow]
    rw [if_pos hsmall]
  · rename_i hlarge
    have hne : major ≠ 7 := fun h => hlarge (hsimple h)
    repeat' split
    all_goals
      refine ⟨_, head?_wide hmajor ?_ (fun h => absurd h hne) ?_ rest, fun h => absurd h hne⟩
      · decide
      · omega

theorem take?_append (content rest : Bytes) :
    take? content.length (content ++ rest) = some (content, rest) := by
  simp [take?]

theorem length_head_pos (major n : Nat) : 0 < (head major n).length := by
  simp only [head]
  repeat' split
  all_goals simp

/-! ## Numbers -/

/-- The layout that a length code stands for. -/
def layouts : List (Nat × Layout) := [(25, .half), (26, .single), (27, .double)]

/-- A stored number has the head of one of the layouts, which reads it as that number. -/
theorem head?_encodeFloat (x : Float) (rest : Bytes) :
    ∃ code layout bits, (code, layout) ∈ layouts ∧ layout.number bits = x
      ∧ head? (encodeFloat x ++ rest) = some (⟨7, code, some bits⟩, rest) := by
  unfold encodeFloat
  split
  · rename_i hundefined
    refine ⟨25, .half, 0x7e00, by simp [layouts], ?_, rfl⟩
    have hlast := @Layout.number_last .half false 512 (by decide)
    rw [if_neg (by decide)] at hlast
    refine Eq.trans hlast (withSign_of_undefined hundefined ?_ ?_)
    · decide
    · exact ⟨by decide, by decide⟩
  · rename_i negative hinfinite
    refine ⟨25, .half, Layout.half.signBit negative + 31 * 2 ^ 10 + 0, by simp [layouts], ?_, ?_⟩
    · exact (@Layout.number_last .half negative 0 (by decide)).trans (withSign_of_infinite hinfinite)
    · cases negative <;> rfl
  · rename_i negative mantissa exponent hfinite
    have hcanonical := canonical_of_ofFloat hfinite
    have hpack := pack_ofFloat hfinite
    split
    · rename_i bits hbits
      refine ⟨25, .half, bits, by simp [layouts],
        (Layout.number_bits? Layout.regular_half hcanonical hbits).trans hpack, ?_⟩
      exact @head?_wide 7 25 2 bits (by decide) (by decide) (by decide)
        (Layout.bits?_lt Layout.regular_half hbits) rest
    · split
      · rename_i bits hbits
        refine ⟨26, .single, bits, by simp [layouts],
          (Layout.number_bits? Layout.regular_single hcanonical hbits).trans hpack, ?_⟩
        exact @head?_wide 7 26 4 bits (by decide) (by decide) (by decide)
          (Layout.bits?_lt Layout.regular_single hbits) rest
      · refine ⟨27, .double, x.toBits.toNat, by simp [layouts], Layout.number_double hfinite, ?_⟩
        exact @head?_wide 7 27 8 _ (by decide) (by decide) (by decide) x.toBits.toNat_lt rest

theorem length_encodeFloat_pos (x : Float) : 0 < (encodeFloat x).length := by
  unfold encodeFloat
  repeat' split
  all_goals simp

namespace Item

/-! ## Items in general -/

theorem length_encode_pos : (item : Item) → 0 < (encode item).length
  | .unsigned n => length_head_pos 0 n
  | .negative n => length_head_pos 1 n
  | .bytes content => by
      have hpos := length_head_pos 2 content.length
      simp only [encode, List.length_append]
      omega
  | .text chunks => by
      have hpos := length_head_pos 3 chunks.flatten.length
      simp only [encode, List.length_append]
      omega
  | .array items => by
      have hpos := length_head_pos 4 items.length
      simp only [encode, List.length_append]
      omega
  | .map entries => by
      have hpos := length_head_pos 5 entries.length
      simp only [encode, List.length_append]
      omega
  | .tagged tag content => by
      have hpos := length_head_pos 6 tag
      simp only [encode, List.length_append]
      omega
  | .simple n => length_head_pos 7 n
  | .float x => length_encodeFloat_pos x

/-- An item that is read, inside as many lists and maps as `depth`, from what is written of it. -/
def Reads (depth : Nat) (item : Item) : Prop :=
  ∀ fuel rest, 2 * (encode item).length ≤ fuel →
    item? fuel depth (encode item ++ rest) = some (item, rest)

/-- A written item is never empty, so there is fuel for its head. -/
theorem reads_of_succ {depth : Nat} {item : Item}
    (h : ∀ fuel rest, 2 * (encode item).length ≤ fuel + 1 →
      item? (fuel + 1) depth (encode item ++ rest) = some (item, rest)) : Reads depth item := by
  intro fuel rest hfuel
  have hpos := length_encode_pos item
  obtain ⟨fuel, rfl⟩ : ∃ f, fuel = f + 1 := ⟨fuel - 1, by omega⟩
  exact h fuel rest hfuel

theorem items?_encodeItems {depth : Nat} {items : List Item} (h : ∀ item ∈ items, Reads depth item)
    {room fuel : Nat} (rest : Bytes) (hroom : items.length ≤ room)
    (hfuel : 2 * (encodeItems items).length + 1 ≤ fuel) :
    items? fuel depth (some items.length) room (encodeItems items ++ rest) = some (items, rest) := by
  induction items generalizing room fuel with
  | nil =>
      obtain ⟨fuel, rfl⟩ : ∃ f, fuel = f + 1 := ⟨fuel - 1, by omega⟩
      rfl
  | cons item items ih =>
      obtain ⟨fuel, rfl⟩ : ∃ f, fuel = f + 1 := ⟨fuel - 1, by omega⟩
      have hpos := length_encode_pos item
      simp only [encodeItems, List.length_append, List.length_cons] at hroom hfuel
      have hitem := h item List.mem_cons_self fuel (encodeItems items ++ rest) (by omega)
      have hitems : items? fuel depth (some items.length) (room - 1) (encodeItems items ++ rest)
          = some (items, rest) :=
        ih (fun i hi => h i (List.mem_cons_of_mem _ hi)) (by omega) (by omega)
      simp only [encodeItems, List.length_cons, items?, List.append_assoc]
      rw [if_neg (by omega), hitem]
      simp only [bind, Option.bind, hitems, pure]

/-- The keys and values of a map in a row. -/
def flattened : List (Item × Item) → List Item
  | [] => []
  | (key, value) :: rest => key :: value :: flattened rest

theorem encodeEntries_eq (entries : List (Item × Item)) :
    encodeEntries entries = encodeItems (flattened entries) := by
  induction entries with
  | nil => rfl
  | cons e entries ih => rw [encodeEntries, flattened, encodeItems, encodeItems, ih]

theorem pairs?_flattened (entries : List (Item × Item)) :
    pairs? (flattened entries) = some entries := by
  induction entries with
  | nil => rfl
  | cons e entries ih => rw [flattened, pairs?, ih, Option.map_some]

theorem length_flattened (entries : List (Item × Item)) :
    (flattened entries).length = 2 * entries.length := by
  induction entries with
  | nil => rfl
  | cons e entries ih =>
      rw [flattened, List.length_cons, List.length_cons, List.length_cons, ih]
      omega

theorem mem_flattened {entries : List (Item × Item)} {item : Item} (h : item ∈ flattened entries) :
    ∃ e ∈ entries, item = e.1 ∨ item = e.2 := by
  induction entries with
  | nil => cases h
  | cons e entries ih =>
      rw [flattened, List.mem_cons, List.mem_cons] at h
      rcases h with h | h | h
      · exact ⟨e, List.mem_cons_self, .inl h⟩
      · exact ⟨e, List.mem_cons_self, .inr h⟩
      · obtain ⟨e', he', hitem⟩ := ih h
        exact ⟨e', List.mem_cons_of_mem _ he', hitem⟩

/-- Items within the bounds of reading, with `room` for lists and maps inside one another. -/
inductive Bounded : Nat → Item → Prop
  | unsigned {room n : Nat} (hn : n < 2 ^ 64) : Bounded room (.unsigned n)
  | negative {room n : Nat} (hn : n < 2 ^ 64) : Bounded room (.negative n)
  | text {room : Nat} {content : Bytes} (hlength : content.length < 2 ^ 64) :
      Bounded room (.text [content])
  | array {room : Nat} {items : List Item} (hlength : items.length ≤ maxEntries)
      (hitems : ∀ item ∈ items, Bounded room item) : Bounded (room + 1) (.array items)
  | map {room : Nat} {entries : List (Item × Item)} (hlength : entries.length ≤ maxEntries)
      (hkeys : ∀ e ∈ entries, Bounded room e.1) (hvalues : ∀ e ∈ entries, Bounded room e.2) :
      Bounded (room + 1) (.map entries)
  | simple {room n : Nat} (hn : n < 24) : Bounded room (.simple n)
  | float {room : Nat} (x : Float) : Bounded room (.float x)

/-- An item within the bounds is read from what is written of it. -/
theorem Bounded.reads {room : Nat} {item : Item} (h : Bounded room item) {depth : Nat}
    (hdepth : depth + room ≤ maxNesting) : Reads depth item := by
  induction h generalizing depth with
  | @unsigned room n hn =>
      refine reads_of_succ fun fuel rest _ => ?_
      obtain ⟨code, hhead, -⟩ := @head?_head 0 n (by decide) hn nofun rest
      simp only [encode, item?, hhead]
  | @negative room n hn =>
      refine reads_of_succ fun fuel rest _ => ?_
      obtain ⟨code, hhead, -⟩ := @head?_head 1 n (by decide) hn nofun rest
      simp only [encode, item?, hhead]
  | @text room content hlength =>
      refine reads_of_succ fun fuel rest _ => ?_
      obtain ⟨code, hhead, -⟩ := @head?_head 3 _ (by decide) hlength nofun (content ++ rest)
      simp only [encode, List.flatten_cons, List.flatten_nil, List.append_nil, List.append_assoc,
        item?, hhead, take?_append, Option.map_some]
  | @array room items hlength hitems ih =>
      refine reads_of_succ fun fuel rest hfuel => ?_
      have hpos := length_head_pos 4 items.length
      have hcount : items.length < 2 ^ 64 := Nat.lt_of_le_of_lt hlength (by decide)
      simp only [encode, List.length_append] at hfuel
      obtain ⟨code, hhead, -⟩ := @head?_head 4 _ (by decide) hcount nofun (encodeItems items ++ rest)
      have hread := @items?_encodeItems (depth + 1) items (fun i hi => ih i hi (by omega))
        maxEntries fuel rest hlength (by omega)
      simp only [encode, List.append_assoc, item?, hhead]
      rw [if_neg (by omega), hread, Option.map_some]
  | @map room entries hlength hkeys hvalues ihkeys ihvalues =>
      refine reads_of_succ fun fuel rest hfuel => ?_
      have hpos := length_head_pos 5 entries.length
      have hcount : entries.length < 2 ^ 64 := Nat.lt_of_le_of_lt hlength (by decide)
      simp only [encode, encodeEntries_eq, List.length_append] at hfuel
      obtain ⟨code, hhead, -⟩ := @head?_head 5 _ (by decide) hcount nofun
        (encodeItems (flattened entries) ++ rest)
      have hreads : ∀ item ∈ flattened entries, Reads (depth + 1) item := by
        intro item hitem
        obtain ⟨e, he, rfl | rfl⟩ := mem_flattened hitem
        · exact ihkeys e he (by omega)
        · exact ihvalues e he (by omega)
      have hflat := length_flattened entries
      have hread := @items?_encodeItems (depth + 1) _ hreads (2 * maxEntries) fuel rest
        (by omega) (by omega)
      rw [hflat] at hread
      simp only [encode, encodeEntries_eq, List.append_assoc, item?, hhead]
      rw [if_neg (by omega)]
      simp only [Option.map_some, hread, pairs?_flattened, bind, Option.bind, pure]
  | @simple room n hn =>
      refine reads_of_succ fun fuel rest _ => ?_
      obtain ⟨code, hhead, hcode⟩ := @head?_head 7 n (by decide) (by omega) (fun _ => hn) rest
      have hcode := hcode rfl
      simp only [encode, item?, hhead]
      rw [if_neg (by omega), if_neg (by omega), if_neg (by omega)]
  | float x =>
      refine reads_of_succ fun fuel rest _ => ?_
      obtain ⟨code, layout, bits, hlayout, hnumber, hhead⟩ := head?_encodeFloat x rest
      simp only [encode, item?, hhead]
      simp only [layouts, List.mem_cons, Prod.mk.injEq, List.not_mem_nil, or_false] at hlayout
      rcases hlayout with ⟨rfl, rfl⟩ | ⟨rfl, rfl⟩ | ⟨rfl, rfl⟩ <;> simp [hnumber]

/-- The bytes of an item hold that item and nothing else. -/
theorem decode?_encode {item : Item} (h : Bounded maxNesting item) :
    decode? (encode item) = some item := by
  have hreads := h.reads (Nat.le_of_eq (Nat.zero_add maxNesting))
    (2 * (encode item).length + 2) [] (by omega)
  rw [List.append_nil] at hreads
  rw [decode?, hreads]

end Item

end LineScript.Wire
