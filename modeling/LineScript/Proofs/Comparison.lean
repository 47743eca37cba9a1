/-
# One order behind six operators

The comparisons go through a three-way order that counts whatever is neither less nor greater as the
same; equality is decided on its own. The two agree because numbers are compared by a rank in a linear
order and texts by their characters, and equality is equality of ranks or of texts.

What is no number has no rank. It is not less than, not equal to and not greater than any number, so
the agreement is stated for the others; that inequality is the negation of equality holds for all.
-/

import Mathlib
import LineScript.Machine.Step
import LineScript.Native.Standard
import LineScript.Proofs.EncodedTexts
import LineScript.Proofs.Operators

/-! ## Texts and their bytes -/

namespace LineScript.Text

theorem byte_cons_lt {m n : Nat} {r r' : Bytes} (hn : n < 256) (hle : m ≤ n)
    (h : m = n → r < r') : UInt8.ofNat m :: r < UInt8.ofNat n :: r' := by
  rw [List.cons_lt_cons_iff, UInt8.lt_iff_toNat_lt, toNat_byte hn, toNat_byte (by omega)]
  rcases Nat.lt_or_eq_of_le hle with hlt | rfl
  · exact .inl hlt
  · exact .inr ⟨rfl, h rfl⟩

theorem toNat_lt (c : Char) : c.val.toNat < 0x110000 := by
  have hvalid : c.val.toNat < 0xd800 ∨ 0xdfff < c.val.toNat ∧ c.val.toNat < 0x110000 := c.valid
  omega

/-- The bytes of a character come before those of a greater one, whatever follows. -/
theorem utf8EncodeChar_append_lt {c d : Char} (h : c < d) (r r' : Bytes) :
    String.utf8EncodeChar c ++ r < String.utf8EncodeChar d ++ r' := by
  have hless : c.val.toNat < d.val.toNat := h
  have hd := toNat_lt d
  simp only [String.utf8EncodeChar]
  generalize c.val.toNat = v at hless
  generalize d.val.toNat = w at hless hd
  have hshorter : ∀ {m n : Nat} {q q' : Bytes}, m < n → n < 256 →
      UInt8.ofNat m :: q ++ r < UInt8.ofNat n :: q' ++ r' :=
    fun hlt hn => byte_cons_lt hn hlt.le fun h => absurd h hlt.ne
  -- Fewer bytes begin with a lesser one; as many bytes are the digits of the character to base 64.
  split
  · split
    · exact hshorter hless (by omega)
    · split
      · exact hshorter (by omega) (by omega)
      · split <;> exact hshorter (by omega) (by omega)
  rw [if_neg (by omega : ¬ w ≤ 0x7f)]
  split
  · split
    · refine byte_cons_lt (by omega) (by omega) fun hfirst => ?_
      exact byte_cons_lt (by omega) (by omega) fun _ => by omega
    · split <;> exact hshorter (by omega) (by omega)
  rw [if_neg (by omega : ¬ w ≤ 0x7ff)]
  split
  · split
    · refine byte_cons_lt (by omega) (by omega) fun hfirst => ?_
      refine byte_cons_lt (by omega) (by omega) fun hsecond => ?_
      exact byte_cons_lt (by omega) (by omega) fun _ => by omega
    · exact hshorter (by omega) (by omega)
  rw [if_neg (by omega : ¬ w ≤ 0xffff)]
  refine byte_cons_lt (by omega) (by omega) fun hfirst => ?_
  refine byte_cons_lt (by omega) (by omega) fun hsecond => ?_
  refine byte_cons_lt (by omega) (by omega) fun hthird => ?_
  exact byte_cons_lt (by omega) (by omega) fun _ => by omega

theorem encode_lt_encode {s t : String} (h : s < t) : encode s < encode t := by
  have hchars : List.Lex (· < ·) s.toList t.toList := String.lt_iff_toList_lt.mp h
  unfold encode
  generalize s.toList = cs, t.toList = ds at hchars
  induction hchars with
  | @nil d ds =>
      obtain ⟨b, further, hbytes, -⟩ := leading?_utf8EncodeChar d []
      rw [List.flatMap_cons, hbytes]
      exact List.nil_lt_cons _ _
  | cons _ ih =>
      rw [List.flatMap_cons, List.flatMap_cons]
      exact List.Lex.append_left _ ih _
  | rel hchar =>
      rw [List.flatMap_cons, List.flatMap_cons]
      exact utf8EncodeChar_append_lt hchar _ _

/-- Texts are in the order of their bytes. -/
theorem encode_lt_encode_iff {s t : String} : encode s < encode t ↔ s < t := by
  refine ⟨fun hbytes => ?_, encode_lt_encode⟩
  rcases lt_trichotomy s t with h | rfl | h
  · exact h
  · exact absurd hbytes (List.lt_irrefl _)
  · exact absurd hbytes (List.lt_asymm (encode_lt_encode h))

end LineScript.Text

/-! ## Numbers and their ranks -/

namespace LineScript.Number

open Float.Model

/-- The rank of what a double unpacks to: its sign and size, then its exponent, then its mantissa. The
two zeros share a rank. -/
def unpackedRank : UnpackedFloat → ℤ ×ₗ ℤ ×ₗ ℤ
  | .infinity .negative => toLex (-2, toLex (0, 0))
  | .finite .negative mantissa exponent _ => toLex (-1, toLex (-exponent, -mantissa))
  | .zero _ | .notANumber => toLex (0, toLex (0, 0))
  | .finite .positive mantissa exponent _ => toLex (1, toLex (exponent, mantissa))
  | .infinity .positive => toLex (2, toLex (0, 0))

/-- The rank of a number among all numbers. -/
def rank (x : Float) : ℤ ×ₗ ℤ ×ₗ ℤ := unpackedRank x.toModel.unpack

theorem compare_toLex (a b c a' b' c' : ℤ) :
    compare (toLex (a, toLex (b, c))) (toLex (a', toLex (b', c'))) =
      (compare a a').then ((compare b b').then (compare c c')) := rfl

theorem compare_neg (a b : ℤ) : compare (-a) (-b) = (compare a b).swap := by
  have hanti : StrictAnti (Neg.neg : ℤ → ℤ) := fun _ _ h => Int.neg_lt_neg h
  rw [← cmp_eq_compare, ← cmp_eq_compare, cmp_swap]
  exact hanti.cmp_map_eq a b

theorem compare_natCast (m n : ℕ) : compare (m : ℤ) n = compare m n := by
  rw [← cmp_eq_compare, ← cmp_eq_compare]
  exact Nat.strictMono_cast.cmp_map_eq m n

/-- Comparison is the order of the ranks. -/
theorem compare_unpacked {u v : UnpackedFloat} (hu : u.isNaN = false) (hv : v.isNaN = false) :
    u.compare v = some (compare (unpackedRank u) (unpackedRank v)) := by
  rcases u with ⟨_ | _⟩ | _ | _ | ⟨_ | _, m, e, hm⟩ <;>
    rcases v with ⟨_ | _⟩ | _ | _ | ⟨_ | _, n, f, hn⟩
  case finite.positive.finite.positive =>
    simp only [unpackedRank]
    rw [compare_toLex, compare_natCast]
    rfl
  case finite.negative.finite.negative =>
    simp only [unpackedRank]
    rw [compare_toLex, compare_neg e f, compare_neg m n, compare_natCast]
    change some ((compare e f).then (compare m n)).swap = some ((compare e f).swap.then (compare m n).swap)
    rw [Ordering.swap_then]
  -- What is left differs in sign or size, or has nothing that could differ.
  all_goals first | cases hu; done | cases hv; done | rfl

theorem lt_iff_compare {x y : Float} :
    x < y ↔ x.toModel.unpack.compare y.toModel.unpack = some .lt := by
  change decide ((_ == some Ordering.lt) = true) = true ↔ _
  rw [decide_eq_true_iff, beq_iff_eq]

theorem beq_iff_compare {x y : Float} :
    (x == y) = true ↔ x.toModel.unpack.compare y.toModel.unpack = some .eq := by
  change (_ == some Ordering.eq) = true ↔ _
  rw [beq_iff_eq]

theorem lt_iff_rank_lt {x y : Float} (hx : x.isNaN = false) (hy : y.isNaN = false) :
    x < y ↔ rank x < rank y := by
  rw [lt_iff_compare, compare_unpacked hx hy, Option.some.injEq, compare_lt_iff_lt]
  rfl

theorem beq_iff_rank_eq {x y : Float} (hx : x.isNaN = false) (hy : y.isNaN = false) :
    (x == y) = true ↔ rank x = rank y := by
  rw [beq_iff_compare, compare_unpacked hx hy, Option.some.injEq, compare_eq_iff_eq]
  rfl

theorem compare_eq_none {u v : UnpackedFloat} (h : u.isNaN = true ∨ v.isNaN = true) :
    u.compare v = none := by
  cases u with
  | notANumber => rfl
  | infinity s | zero s | finite s m e hm =>
      rcases h with h | h
      · cases h
      · cases v with
        | notANumber => rfl
        | infinity t | zero t | finite t n f hn => cases h

/-- What is no number is not comparable to anything. -/
theorem unordered {x y : Float} (h : x.isNaN = true ∨ y.isNaN = true) :
    ¬ x < y ∧ ¬ y < x ∧ (x == y) = false := by
  have hforth : x.toModel.unpack.compare y.toModel.unpack = none := compare_eq_none h
  have hback : y.toModel.unpack.compare x.toModel.unpack = none := compare_eq_none h.symm
  rw [lt_iff_compare, lt_iff_compare, ← Bool.not_eq_true, beq_iff_compare, hforth, hback]
  exact ⟨nofun, nofun, nofun⟩

end LineScript.Number

/-! ## The operators -/

namespace LineScript.Machine

open LineScript.Code

/-- On two operands, the second one uppermost, an operator answers with a truth value. -/
def Decides (o : BinaryOp) (a b : Value) (r : Bool) : Prop :=
  ∀ (s : State) (p : Program) (limits : Limits) (i : Instruction), i.op = o.opcode →
    s.frame.base ≤ s.stack.size →
    ((s.push a).push b).execute p limits i = .next (s.push (.boolean r))

/-- Exactly one of less, equal and greater holds, and the other operators follow from these. -/
def Consistent (a b : Value) : Prop :=
  ∃ less equal greater : Bool,
    [less, equal, greater].count true = 1 ∧
    Decides .less a b less ∧ Decides .equal a b equal ∧ Decides .greater a b greater ∧
    Decides .lessOrEqual a b (less || equal) ∧ Decides .greaterOrEqual a b (greater || equal) ∧
    Decides .notEqual a b (!equal)

/-- Two numbers, none of them undefined, or two texts. -/
inductive Comparable : Value → Value → Prop where
  | numbers {x y : Float} (hx : x.isNaN = false) (hy : y.isNaN = false) :
      Comparable (.number x) (.number y)
  | strings (s t : String) : Comparable (.string s) (.string t)

theorem State.popping2_push {s : State} (h : s.frame.base ≤ s.stack.size) (a b : Value)
    (continuation : Value → Value → State → Transition) :
    ((s.push a).push b).popping2 continuation = continuation a b s := by
  have hpopping : ∀ (t : State) (v : Value) (k : Value → State → Transition),
      t.frame.base ≤ t.stack.size → (t.push v).popping k = k v t := by
    intro t v k ht
    have htop : (t.push v).hasTop = true := by
      unfold State.hasTop State.push
      simp only [Array.size_push, decide_eq_true_eq]
      omega
    unfold State.popping
    rw [if_pos htop]
    simp only [State.top, State.drop, State.push, Array.back?_push, Option.getD_some, Array.pop_push]
  unfold State.popping2
  have hpushed : (s.push a).frame.base ≤ (s.push a).stack.size := by
    simp only [State.push, Array.size_push]
    omega
  rw [hpopping _ b _ hpushed, hpopping s a _ h]

/-- The order that is behind the four comparisons decides them. -/
theorem decides_of_order {a b : Value} {place : Ordering} (h : order a b = .ok place) :
    Decides .less a b place.isLT ∧ Decides .greater a b place.isGT ∧
      Decides .lessOrEqual a b place.isLE ∧ Decides .greaterOrEqual a b place.isGE := by
  refine ⟨?_, ?_, ?_, ?_⟩
  all_goals
    intro s p limits i hi hbase
    unfold State.execute
    rw [hi]
    simp only [BinaryOp.opcode]
    rw [State.popping2_push hbase, Machine.compare, h]
    rfl

theorem decides_equal (a b : Value) : Decides .equal a b (a.equal b) := by
  intro s p limits i hi hbase
  unfold State.execute
  rw [hi]
  exact State.popping2_push hbase _ _ _

theorem decides_notEqual (a b : Value) : Decides .notEqual a b (!a.equal b) := by
  intro s p limits i hi hbase
  unfold State.execute
  rw [hi]
  exact State.popping2_push hbase _ _ _

/-- An operator has one answer. -/
theorem Decides.unique {o : BinaryOp} {a b : Value} {r r' : Bool} (h : Decides o a b r)
    (h' : Decides o a b r') : r = r' := by
  let s : State := { frame := { function := default }, globals := ∅, world := {}, natives := ∅ }
  have hbase : s.frame.base ≤ s.stack.size := Nat.le_refl 0
  have hsame := (h s {} {} { op := o.opcode } rfl hbase).symm.trans (h' s {} {} { op := o.opcode } rfl hbase)
  simpa [State.push, Array.push_eq_push] using hsame

/-- The three-way order of a linear order, as the machine computes it. -/
theorem ordering_eq_cmp {α : Type} [LinearOrder α] {a b : α} {less greater : Prop}
    [Decidable less] [Decidable greater] (hless : less ↔ a < b) (hgreater : greater ↔ b < a) :
    (if less then .lt else if greater then .gt else .eq : Ordering) = cmp a b := by
  rcases lt_trichotomy a b with h | h | h
  · rw [if_pos (hless.mpr h), (cmp_eq_lt_iff a b).mpr h]
  · rw [if_neg (hless.not.mpr h.not_lt), if_neg (hgreater.not.mpr h.not_gt), (cmp_eq_eq_iff a b).mpr h]
  · rw [if_neg (hless.not.mpr h.asymm), if_pos (hgreater.mpr h), (cmp_eq_gt_iff a b).mpr h]

theorem isLE_cmp {α : Type} [LinearOrder α] {a b : α} : (cmp a b).isLE = true ↔ a ≤ b := by
  rw [← not_lt, ← cmp_eq_gt_iff]
  cases cmp a b <;> decide

theorem order_number {x y : Float} (hx : x.isNaN = false) (hy : y.isNaN = false) :
    order (.number x) (.number y) = .ok (cmp (Number.rank x) (Number.rank y)) :=
  congrArg Except.ok (ordering_eq_cmp (Number.lt_iff_rank_lt hx hy) (Number.lt_iff_rank_lt hy hx))

theorem order_string (s t : String) : order (.string s) (.string t) = .ok (cmp s t) :=
  congrArg Except.ok (ordering_eq_cmp Iff.rfl Iff.rfl)

/-- Operands whose order and whose equality agree. -/
theorem consistent_of_order {a b : Value} {place : Ordering} (horder : order a b = .ok place)
    (hequal : a.equal b = place.isEq) : Consistent a b := by
  obtain ⟨hless, hgreater, hlessOrEqual, hgreaterOrEqual⟩ := decides_of_order horder
  have hsame : Decides .equal a b place.isEq := hequal ▸ decides_equal a b
  have hother : Decides .notEqual a b (!place.isEq) := hequal ▸ decides_notEqual a b
  refine ⟨place.isLT, place.isEq, place.isGT, ?_, hless, hsame, hgreater, ?_, ?_, hother⟩
  · cases place <;> rfl
  · cases place <;> exact hlessOrEqual
  · cases place <;> exact hgreaterOrEqual

theorem Comparable.consistent {a b : Value} (h : Comparable a b) : Consistent a b := by
  cases h with
  | @numbers x y hx hy =>
      refine consistent_of_order (order_number hx hy) (Bool.eq_iff_iff.mpr ?_)
      change (x == y) = true ↔ _
      rw [Number.beq_iff_rank_eq hx hy, Ordering.isEq_iff_eq_eq, cmp_eq_eq_iff]
  | strings s t =>
      refine consistent_of_order (order_string s t) (Bool.eq_iff_iff.mpr ?_)
      change decide (s = t) = true ↔ _
      rw [decide_eq_true_iff, Ordering.isEq_iff_eq_eq, cmp_eq_eq_iff]

theorem isLE_of_decides {a b : Value} {place : Ordering} (horder : order a b = .ok place)
    (h : Decides .lessOrEqual a b true) : place.isLE = true :=
  (decides_of_order horder).2.2.1.unique h

theorem lessOrEqual_trans {a b c : Value} (hab : Comparable a b) (hbc : Comparable b c)
    (h : Decides .lessOrEqual a b true) (h' : Decides .lessOrEqual b c true) :
    Decides .lessOrEqual a c true := by
  cases hab with
  | @numbers x y hx hy =>
      cases hbc with
      | @numbers _ z _ hz =>
          have hle := isLE_cmp.mp (isLE_of_decides (order_number hx hy) h)
          have hle' := isLE_cmp.mp (isLE_of_decides (order_number hy hz) h')
          have hdecides := (decides_of_order (order_number hx hz)).2.2.1
          rwa [isLE_cmp.mpr (hle.trans hle')] at hdecides
  | strings s t =>
      cases hbc with
      | strings _ u =>
          have hle := isLE_cmp.mp (isLE_of_decides (order_string s t) h)
          have hle' := isLE_cmp.mp (isLE_of_decides (order_string t u) h')
          have hdecides := (decides_of_order (order_string s u)).2.2.1
          rwa [isLE_cmp.mpr (hle.trans hle')] at hdecides

/-- Whatever its operands, inequality is the negation of equality. -/
theorem equality_decided (a b : Value) :
    ∃ equal, Decides .equal a b equal ∧ Decides .notEqual a b (!equal) :=
  ⟨_, decides_equal a b, decides_notEqual a b⟩

/-- Texts are compared byte by byte. -/
theorem less_string (s t : String) :
    Decides .less (.string s) (.string t) (decide (Text.encode s < Text.encode t)) := by
  have hless := (decides_of_order (order_string s t)).1
  have hplace : (cmp s t).isLT = decide (Text.encode s < Text.encode t) := by
    rw [Bool.eq_iff_iff, Ordering.isLT_iff_eq_lt, cmp_eq_lt_iff, decide_eq_true_iff,
      Text.encode_lt_encode_iff]
  rwa [hplace] at hless

/-- A number is not less than, equal to or greater than what is no number. -/
theorem unordered_number {x y : Float} (h : x.isNaN = true ∨ y.isNaN = true) :
    Decides .less (.number x) (.number y) false ∧ Decides .equal (.number x) (.number y) false ∧
      Decides .greater (.number x) (.number y) false := by
  obtain ⟨hless, hgreater, hequal⟩ := Number.unordered h
  have horder : order (.number x) (.number y) = .ok .eq :=
    congrArg Except.ok ((if_neg hless).trans (if_neg hgreater))
  have hdecides := decides_of_order horder
  have hsame : (Value.number x).equal (.number y) = false := hequal
  exact ⟨hdecides.1, hsame ▸ decides_equal _ _, hdecides.2.1⟩

/-! ## One order -/

/-- The six operators are one total order on texts, byte by byte, and on numbers; what is no number
stands outside of it. Inequality is the negation of equality throughout. -/
theorem one_total_order :
    (∀ a b, Comparable a b → Consistent a b) ∧
    (∀ a b c, Comparable a b → Comparable b c → Decides .lessOrEqual a b true →
      Decides .lessOrEqual b c true → Decides .lessOrEqual a c true) ∧
    (∀ s t : String,
      Decides .less (.string s) (.string t) (decide (Text.encode s < Text.encode t))) ∧
    (∀ a b, ∃ equal, Decides .equal a b equal ∧ Decides .notEqual a b (!equal)) ∧
    (∀ x y : Float, x.isNaN = true ∨ y.isNaN = true →
      Decides .less (.number x) (.number y) false ∧ Decides .equal (.number x) (.number y) false ∧
        Decides .greater (.number x) (.number y) false) :=
  ⟨fun _ _ => Comparable.consistent, fun _ _ _ => lessOrEqual_trans, less_string, equality_decided,
    fun _ _ => unordered_number⟩

/-- The two zeros, a text before a longer one, a chain of comparisons, and the root of minus one. -/
theorem one_total_order_zeros :
    Consistent (.number (-0)) (.number 0) ∧ Consistent (.string "z") (.string "é") ∧
      Decides .lessOrEqual (.number (-1)) (.number 2) true ∧
      Decides .less (.number (Float.sqrt (-1))) (.number 2) false := by
  have hone : Comparable (.number (-1)) (.number 0) := .numbers (by decide) (by decide)
  have htwo : Comparable (.number 0) (.number 2) := .numbers (by decide) (by decide)
  have hle : ∀ {x y : Float}, x < y → Decides .lessOrEqual (.number x) (.number y) true := by
    intro x y h
    have horder : order (.number x) (.number y) = .ok .lt := congrArg Except.ok (if_pos h)
    exact (decides_of_order horder).2.2.1
  exact ⟨one_total_order.1 _ _ (.numbers (by decide) (by decide)),
    one_total_order.1 _ _ (.strings _ _),
    one_total_order.2.1 _ _ _ hone htwo (hle (by decide)) (hle (by decide)),
    (one_total_order.2.2.2.2 _ _ (.inl (by decide))).1⟩

/-- What a script gets for the root of minus one is not less than itself, not equal to itself and not
greater, so on all numbers the operators are no total order. -/
theorem not_consistent_root :
    ((Native.numeric "sqrt" Float.sqrt).run 1 [.number (-1)] {}).1 =
        .value (.number (Float.sqrt (-1))) ∧
      ¬ Consistent (.number (Float.sqrt (-1))) (.number (Float.sqrt (-1))) := by
  refine ⟨rfl, fun ⟨less, equal, greater, hone, hless, hequal, hgreater, _⟩ => ?_⟩
  have hnan : (Float.sqrt (-1)).isNaN = true := by decide
  obtain ⟨hnotLess, hnotEqual, hnotGreater⟩ := unordered_number (.inl hnan)
  rw [hless.unique hnotLess, hequal.unique hnotEqual, hgreater.unique hnotGreater] at hone
  exact absurd hone (by decide)

end LineScript.Machine
