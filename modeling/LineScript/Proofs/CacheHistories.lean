/-
# What a cache has been through

A cache is used by storing and looking up, in any order and for any scripts. What a lookup finds does
not need the cache to be told: it is the program stored last for the script and the signatures, read
back from its bytes, provided that it can be read and is fit to run. A lookup that finds a program of no
use drops it; so does no other operation, and no operation reaches what is stored for anything else.

The invariant is that the rows of the cache are those of the programs that were stored last and have
not been dropped. Each operation preserves it, so it holds after any history.
-/

import LineScript.Proofs.CachedService
import LineScript.Proofs.OversizedPrograms

namespace LineScript.Cache

open LineScript.Code

/-! ## Histories -/

/-- What can be done with a cache. -/
inductive Operation where
  /-- Stores the program of a script, if there is one. -/
  | put (source : String) (natives : Dict String) (p? : Option Program)
  | get (source : String) (natives : Dict String)

namespace Operation

/-- The script and the signatures that an operation is about. -/
def subject : Operation → String × Dict String
  | put source natives _ | get source natives => (source, natives)

/-- Whether an operation is a lookup. -/
def isGet : Operation → Bool
  | put _ _ _ => false
  | get _ _ => true

/-- What is stored has machine size. -/
def Sized : Operation → Prop
  | put _ _ (some p) =>
    (∀ name f, p.functions.get? name = some f → f.Sized) ∧ (Wire.encode p).length < 2 ^ 64
  | _ => True

end Operation

/-- The cache after an operation. A program that is not there is not stored. -/
def apply (c : Cache) : Operation → Cache
  | .put source natives p? =>
    match c.put source natives p? with
    | .ok c => c
    | .error _ => c
  | .get source natives => (c.get source natives).2

/-- The cache after a history that began with an empty one. -/
def after (history : List Operation) : Cache := history.foldl apply {}

/-- What a lookup gives for a stored program: the program is read back, the signatures can all be read,
and the program is fit to run with that many arguments each. -/
def Serves (natives : Dict String) (p q : Program) : Prop :=
  Wire.decode (Wire.encode p) = .ok q ∧
    ∃ arities, Registry.aritiesOf natives.toList = .ok arities ∧
      q.invalid? (Dict.ofList arities) = none

theorem Serves.unique {natives : Dict String} {p q q' : Program} (h : Serves natives p q)
    (h' : Serves natives p q') : q = q' :=
  Except.ok.inj (h.1.symm.trans h'.1)

/-- The program was stored, none was stored after it, and no lookup has dropped it since. -/
def Live (history : List Operation) (a : String × Dict String) (p : Program) : Prop :=
  ∃ earlier later, history = earlier ++ .put a.1 a.2 (some p) :: later ∧
    (∀ q, .put a.1 a.2 (some q) ∉ later) ∧ (.get a.1 a.2 ∈ later → ∃ q, Serves a.2 p q)

/-! ## One more operation -/

section

variable {history : List Operation} {a : String × Dict String} {p : Program}

theorem not_live_nil : ¬ Live [] a p := by
  rintro ⟨earlier, later, h, -⟩
  exact List.append_ne_nil_of_right_ne_nil earlier (List.cons_ne_nil _ _) h.symm

/-- The last operation stored the program, or the history before it had stored it already. -/
theorem live_append {o : Operation} (h : Live (history ++ [o]) a p) :
    o = .put a.1 a.2 (some p) ∨
      Live history a p ∧ (∀ q, o ≠ .put a.1 a.2 (some q)) ∧
        (o = .get a.1 a.2 → ∃ q, Serves a.2 p q) := by
  obtain ⟨earlier, later, hsplit, hnone, hget⟩ := h
  obtain rfl | ⟨later, last, rfl⟩ := List.eq_nil_or_concat later
  · exact .inl (List.cons.inj (List.append_inj' hsplit rfl).2).1
  · rw [List.concat_eq_append, ← List.cons_append, ← List.append_assoc] at hsplit
    obtain ⟨rfl, hlast⟩ := List.append_inj' hsplit rfl
    cases hlast
    simp only [List.concat_eq_append, List.mem_append, List.mem_singleton, not_or] at hnone hget
    refine .inr ⟨⟨earlier, later, rfl, fun q => (hnone q).1, fun hmem => hget (.inl hmem)⟩,
      fun q heq => (hnone q).2 heq.symm, fun heq => hget (.inr heq.symm)⟩

theorem Live.append (h : Live history a p) {o : Operation} (hput : ∀ q, o ≠ .put a.1 a.2 (some q))
    (hget : o = .get a.1 a.2 → ∃ q, Serves a.2 p q) : Live (history ++ [o]) a p := by
  obtain ⟨earlier, later, rfl, hnone, hkept⟩ := h
  refine ⟨earlier, later ++ [o], by rw [List.append_assoc]; rfl, fun q hmem => ?_, fun hmem => ?_⟩
  · obtain hmem | hmem := List.mem_append.mp hmem
    · exact hnone q hmem
    · exact hput q (List.mem_singleton.mp hmem).symm
  · obtain hmem | hmem := List.mem_append.mp hmem
    · exact hkept hmem
    · exact hget (List.mem_singleton.mp hmem).symm

/-- What an operation that stores nothing for a script leaves of the program stored for it. -/
theorem live_append_iff {o : Operation} (hput : ∀ q, o ≠ .put a.1 a.2 (some q)) :
    Live (history ++ [o]) a p ↔ Live history a p ∧ (o = .get a.1 a.2 → ∃ q, Serves a.2 p q) := by
  constructor
  · intro h
    obtain rfl | ⟨hlive, -, hget⟩ := live_append h
    · exact absurd rfl (hput p)
    · exact ⟨hlive, hget⟩
  · rintro ⟨hlive, hget⟩
    exact hlive.append hput hget

/-- A program that has just been stored is the one that counts. -/
theorem live_append_put {q : Program} :
    Live (history ++ [.put a.1 a.2 (some q)]) a p ↔ p = q := by
  constructor
  · intro h
    obtain heq | ⟨-, hput, -⟩ := live_append h
    · cases heq
      rfl
    · exact absurd rfl (hput q)
  · rintro rfl
    exact ⟨history, [], rfl, fun _ => List.not_mem_nil, nofun⟩

/-- At most one program counts. -/
theorem Live.unique {q : Program} (h : Live history a p) (h' : Live history a q) : p = q := by
  induction history using List.reverseRecOn with
  | nil => exact absurd h not_live_nil
  | append_singleton history o ih =>
      obtain heq | ⟨hlive, hput, -⟩ := live_append h
      · subst heq
        exact (live_append_put.mp h').symm
      · exact ih hlive ((live_append_iff hput).mp h').1

theorem Live.mem_subjects (h : Live history a p) : a ∈ history.map Operation.subject := by
  obtain ⟨earlier, later, rfl, -⟩ := h
  exact List.mem_map.mpr ⟨_, List.mem_append_right _ List.mem_cons_self, rfl⟩

/-- Only what was stored can count. -/
theorem Live.sized (h : Live history a p) (hsized : ∀ o ∈ history, o.Sized) :
    (∀ name f, p.functions.get? name = some f → f.Sized) ∧ (Wire.encode p).length < 2 ^ 64 := by
  obtain ⟨earlier, later, rfl, -⟩ := h
  exact hsized (.put a.1 a.2 (some p)) (List.mem_append_right _ List.mem_cons_self)

end

/-! ## Single lookups -/

/-- The row of a program. -/
def storedRow (p : Program) : Row := ⟨Wire.formatVersion, Wire.encode p⟩

/-- Reading a row never breaks down, and it gives the program that is served, if there is one. -/
theorem program?_storedRow (natives : Dict String) {p : Program}
    (hsized : ∀ name f, p.functions.get? name = some f → f.Sized)
    (hlength : (Wire.encode p).length < 2 ^ 64) :
    ∃ found?, (storedRow p).program? natives = some found? ∧
      ∀ q, found? = some q ↔ Serves natives p q := by
  have hwhole := Wire.decode_encode_ne_missing hsized hlength
  unfold Row.program? storedRow Serves
  rw [if_neg (fun h => h rfl)]
  dsimp only
  cases hdecode : Wire.decode (Wire.encode p) with
  | error rejection =>
      cases rejection with
      | missing key => exact absurd hdecode (hwhole key)
      | _ => exact ⟨none, rfl, fun q => ⟨nofun, nofun⟩⟩
  | ok p' =>
      dsimp only
      cases harities : Registry.aritiesOf natives.toList with
      | error e => exact ⟨none, rfl, fun q => ⟨nofun, nofun⟩⟩
      | ok arities =>
          dsimp only
          cases hinvalid : p'.invalid? (Dict.ofList arities) with
          | some detail =>
              refine ⟨none, rfl, fun q => ⟨nofun, ?_⟩⟩
              rintro ⟨hq, arities', heq, hnone⟩
              cases hq
              cases heq
              exact absurd (hinvalid.symm.trans hnone) nofun
          | none =>
              refine ⟨some p', rfl, fun q => ⟨?_, ?_⟩⟩
              · rintro ⟨⟩
                exact ⟨rfl, arities, rfl, hinvalid⟩
              · rintro ⟨hq, -⟩
                cases hq
                rfl

theorem get_of_isOpen {c : Cache} (h : c.isOpen = true) (source : String) (natives : Dict String) :
    c.get source natives =
      match c.rows.get? (key source natives) with
      | none => (.miss, { c with misses := c.misses + 1 })
      | some row =>
        match row.program? natives with
        | none => (.breakdown, c)
        | some none =>
          (.miss, { c with rows := c.rows.erase (key source natives), misses := c.misses + 1 })
        | some (some p) => (.hit p, { c with hits := c.hits + 1 }) := by
  unfold get
  rw [h]
  rfl

/-- The cache is open, its rows are those of the programs that count, and its lookups are counted. -/
structure Follows (c : Cache) (history : List Operation) : Prop where
  isOpen : c.isOpen = true
  rows : ∀ k row, c.rows.get? k = some row ↔
    ∃ a p, key a.1 a.2 = k ∧ Live history a p ∧ storedRow p = row
  counts : c.hits + c.misses = history.countP Operation.isGet

section

variable {c : Cache} {history : List Operation} {a : String × Dict String}

/-- The row of a script is that of the program that counts for it. -/
theorem Follows.row_iff (h : c.Follows history)
    (hapart : Service.Apart (a :: history.map Operation.subject)) (row : Row) :
    c.rows.get? (key a.1 a.2) = some row ↔ ∃ p, Live history a p ∧ storedRow p = row := by
  rw [h.rows]
  constructor
  · rintro ⟨b, p, hkey, hlive, hrow⟩
    cases hapart b (List.mem_cons_of_mem _ hlive.mem_subjects) a List.mem_cons_self hkey
    exact ⟨p, hlive, hrow⟩
  · rintro ⟨p, hlive, hrow⟩
    exact ⟨a, p, rfl, hlive, hrow⟩

/-- A lookup misses where nothing counts, hits where the program that counts is served, and drops it
where it is not. -/
theorem Follows.get_cases (h : c.Follows history)
    (hapart : Service.Apart (a :: history.map Operation.subject))
    (hsized : ∀ o ∈ history, o.Sized) :
    ((∀ p, ¬ Live history a p) ∧ c.get a.1 a.2 = (.miss, { c with misses := c.misses + 1 })) ∨
    (∃ p q, Live history a p ∧ Serves a.2 p q ∧
      c.get a.1 a.2 = (.hit q, { c with hits := c.hits + 1 })) ∨
    ∃ p, Live history a p ∧ (∀ q, ¬ Serves a.2 p q) ∧ c.get a.1 a.2 =
      (.miss, { c with rows := c.rows.erase (key a.1 a.2), misses := c.misses + 1 }) := by
  have hrow := h.row_iff hapart
  cases hfound : c.rows.get? (key a.1 a.2) with
  | none =>
      refine .inl ⟨fun p hlive => ?_, ?_⟩
      · exact absurd (hfound.symm.trans ((hrow _).mpr ⟨p, hlive, rfl⟩)) nofun
      · rw [get_of_isOpen h.isOpen, hfound]
  | some row =>
      obtain ⟨p, hlive, rfl⟩ := (hrow row).mp hfound
      obtain ⟨hfunctions, hlength⟩ := hlive.sized hsized
      obtain ⟨found?, hread, hserves⟩ := program?_storedRow a.2 hfunctions hlength
      cases found? with
      | none =>
          refine .inr (.inr ⟨p, hlive, fun q hq => (nomatch (hserves q).mpr hq), ?_⟩)
          rw [get_of_isOpen h.isOpen, hfound]
          dsimp only
          rw [hread]
      | some q =>
          refine .inr (.inl ⟨p, q, hlive, (hserves q).mp rfl, ?_⟩)
          rw [get_of_isOpen h.isOpen, hfound]
          dsimp only
          rw [hread]

end

/-! ## Histories, operation by operation -/

section

variable {c : Cache} {history : List Operation}

theorem follows_nil : Follows {} [] :=
  ⟨rfl, fun _ _ => ⟨nofun, fun ⟨_, _, _, hlive, _⟩ => absurd hlive not_live_nil⟩, rfl⟩

/-- What an operation leaves of what is stored for anything else. -/
theorem live_append_of_ne {o : Operation} {b : String × Dict String} {p : Program}
    (hne : o.subject ≠ b) : Live (history ++ [o]) b p ↔ Live history b p := by
  have hput : ∀ q, o ≠ .put b.1 b.2 (some q) := by
    rintro q rfl
    exact hne rfl
  rw [live_append_iff hput]
  refine and_iff_left ?_
  rintro rfl
  exact absurd rfl hne

/-- Rows that change for one script only follow a history that changes for this script only. -/
theorem Follows.append (h : c.Follows history) {o : Operation} {c' : Cache}
    (hapart : Service.Apart (o.subject :: history.map Operation.subject))
    (hopen : c'.isOpen = true)
    (hother : ∀ k, k ≠ key o.subject.1 o.subject.2 → c'.rows.get? k = c.rows.get? k)
    (hsame : ∀ row, c'.rows.get? (key o.subject.1 o.subject.2) = some row ↔
      ∃ p, Live (history ++ [o]) o.subject p ∧ storedRow p = row)
    (hcounts : c'.hits + c'.misses = c.hits + c.misses + [o].countP Operation.isGet) :
    c'.Follows (history ++ [o]) := by
  refine ⟨hopen, fun k row => ?_, ?_⟩
  · by_cases hk : k = key o.subject.1 o.subject.2
    · rw [hk, hsame]
      constructor
      · rintro ⟨p, hlive, hrow⟩
        exact ⟨o.subject, p, rfl, hlive, hrow⟩
      · rintro ⟨b, p, hkey, hlive, hrow⟩
        have hmem : b ∈ o.subject :: history.map Operation.subject := by
          have := hlive.mem_subjects
          rw [List.map_append] at this
          obtain hold | hnew := List.mem_append.mp this
          · exact List.mem_cons_of_mem _ hold
          · rw [List.mem_singleton.mp hnew]
            exact List.mem_cons_self
        cases hapart b hmem _ List.mem_cons_self hkey
        exact ⟨p, hlive, hrow⟩
    · rw [hother k hk, h.rows]
      constructor
      · rintro ⟨b, p, rfl, hlive, hrow⟩
        exact ⟨b, p, rfl, (live_append_of_ne (by rintro rfl; exact hk rfl)).mpr hlive, hrow⟩
      · rintro ⟨b, p, rfl, hlive, hrow⟩
        exact ⟨b, p, rfl, (live_append_of_ne (by rintro rfl; exact hk rfl)).mp hlive, hrow⟩
  · rw [List.countP_append, hcounts, h.counts]

section

variable {source : String} {natives : Dict String}

/-- Storing a program takes the place of what was stored for the same script. -/
theorem Follows.put (h : c.Follows history) (p : Program)
    (hapart : Service.Apart ((source, natives) :: history.map Operation.subject)) :
    Follows { c with rows := c.rows.insert (key source natives) (storedRow p) }
      (history ++ [.put source natives (some p)]) := by
  refine h.append hapart h.isOpen (fun k hk => Dict.get?_insert_of_ne _ _ hk) (fun row => ?_) rfl
  have hinserted : (c.rows.insert (key source natives) (storedRow p)).get? (key source natives) =
      some (storedRow p) := Dict.get?_insert_self _ _ _
  have hlive : ∀ q, Live (history ++ [.put source natives (some p)]) (source, natives) q ↔ q = p :=
    fun _ => live_append_put (a := (source, natives))
  constructor
  · intro hrow
    exact ⟨p, (hlive p).mpr rfl, Option.some.inj (hinserted.symm.trans hrow)⟩
  · rintro ⟨q, hq, rfl⟩
    rw [(hlive q).mp hq]
    exact hinserted

/-- Where there is no program to store, nothing changes. -/
theorem Follows.put_none (h : c.Follows history)
    (hapart : Service.Apart ((source, natives) :: history.map Operation.subject)) :
    c.Follows (history ++ [.put source natives none]) := by
  refine h.append hapart h.isOpen (fun _ _ => rfl) (fun row => (h.row_iff hapart row).trans ?_) rfl
  refine exists_congr fun p => and_congr_left' ?_
  have hput : ∀ q, Operation.put source natives none ≠ .put source natives (some q) := by
    intro q hq
    cases hq
  refine ((live_append_iff (a := (source, natives)) hput).trans (and_iff_left ?_)).symm
  intro hget
  cases hget

/-- A lookup keeps what it serves and drops what it does not. -/
theorem Follows.get (h : c.Follows history)
    (hapart : Service.Apart ((source, natives) :: history.map Operation.subject))
    (hsized : ∀ o ∈ history, o.Sized) :
    (c.get source natives).2.Follows (history ++ [.get source natives]) := by
  have hlive : ∀ p, Live (history ++ [.get source natives]) (source, natives) p ↔
      Live history (source, natives) p ∧ ∃ q, Serves natives p q := fun p => by
    have hput : ∀ q, Operation.get source natives ≠ .put source natives (some q) := by
      intro q hq
      cases hq
    exact (live_append_iff (a := (source, natives)) hput).trans
      (and_congr_right' (forall_prop_of_true rfl))
  obtain ⟨hnone, hget⟩ | ⟨p, q, hp, hserves, hget⟩ | ⟨p, hp, hserves, hget⟩ :=
    h.get_cases hapart hsized
  · rw [hget]
    refine h.append hapart h.isOpen (fun _ _ => rfl) (fun row => (h.row_iff hapart row).trans ?_) rfl
    refine exists_congr fun p => and_congr_left' ?_
    exact iff_of_false (hnone p) fun hp => hnone p ((hlive p).mp hp).1
  · rw [hget]
    refine h.append hapart h.isOpen (fun _ _ => rfl) (fun row => (h.row_iff hapart row).trans ?_)
      (Nat.add_right_comm c.hits 1 c.misses)
    refine exists_congr fun p' => and_congr_left' ?_
    refine ⟨fun hp' => (hlive p').mpr ⟨hp', ?_⟩, fun hp' => ((hlive p').mp hp').1⟩
    rw [hp'.unique hp]
    exact ⟨q, hserves⟩
  · rw [hget]
    refine h.append hapart h.isOpen (fun k hk => Dict.get?_erase_of_ne _ hk) (fun row => ?_) rfl
    have herased : (c.rows.erase (key source natives)).get? (key source natives) = none :=
      Dict.get?_erase_self _ _
    refine iff_of_false (fun hrow => nomatch herased.symm.trans hrow) ?_
    rintro ⟨p', hp', -⟩
    obtain ⟨hp', q, hq⟩ := (hlive p').mp hp'
    rw [hp'.unique hp] at hq
    exact hserves q hq

end

/-- A program is stored for each key whose program counts. -/
theorem Follows.entries (h : c.Follows history) :
    ∃ keys : List String, keys.Nodup ∧
      (∀ k, k ∈ keys ↔ ∃ a p, key a.1 a.2 = k ∧ Live history a p) ∧
      c.entries = .ok keys.length := by
  refine ⟨c.rows.keys, c.rows.nodup_keys, fun k => ?_, ?_⟩
  · constructor
    · intro hk
      obtain ⟨⟨k, row⟩, hmem, rfl⟩ := List.mem_map.mp hk
      obtain ⟨a, p, hkey, hlive, -⟩ := (h.rows k row).mp (Dict.get?_eq_some_iff.mpr hmem)
      exact ⟨a, p, hkey, hlive⟩
    · rintro ⟨a, p, rfl, hlive⟩
      have hrow := (h.rows (key a.1 a.2) (storedRow p)).mpr ⟨a, p, rfl, hlive, rfl⟩
      exact List.mem_map.mpr ⟨_, Dict.get?_eq_some_iff.mp hrow, rfl⟩
  · unfold Cache.entries
    rw [if_pos h.isOpen]
    exact congrArg Except.ok (List.length_map _).symm

/-- Each operation keeps the cache and its history together. -/
theorem Follows.apply (h : c.Follows history) (o : Operation)
    (hapart : Service.Apart (o.subject :: history.map Operation.subject))
    (hsized : ∀ o ∈ history, o.Sized) : (c.apply o).Follows (history ++ [o]) := by
  cases o with
  | put source natives p? =>
      cases p? with
      | none => exact h.put_none hapart
      | some p =>
          have hput : c.apply (.put source natives (some p)) =
              { c with rows := c.rows.insert (key source natives) (storedRow p) } := by
            unfold Cache.apply
            dsimp only
            rw [put_of_isOpen h.isOpen]
            rfl
          rw [hput]
          exact h.put p hapart
  | get source natives => exact h.get hapart hsized

/-- After any history the cache is what the history says. -/
theorem follows_after (hapart : Service.Apart (history.map Operation.subject))
    (hsized : ∀ o ∈ history, o.Sized) : (after history).Follows history := by
  induction history using List.reverseRecOn with
  | nil => exact follows_nil
  | append_singleton history o ih =>
      have hearlier := fun o' ho' => hsized o' (List.mem_append_left [o] ho')
      rw [List.map_append] at hapart
      have hfollows := ih (hapart.mono (List.subset_append_left _ _)) hearlier
      have hnext : Service.Apart (o.subject :: history.map Operation.subject) :=
        hapart.mono fun a ha => by
          obtain rfl | ha := List.mem_cons.mp ha
          · exact List.mem_append_right _ List.mem_cons_self
          · exact List.mem_append_left _ ha
      unfold after
      rw [List.foldl_append]
      exact hfollows.apply o hnext hearlier

end

/-! ## What lookups find -/

/-- What a history leads to. Take any history of a cache that was empty at first, and then a lookup. It
hits exactly when a program was stored for the script and the signatures, has not been dropped since,
is read back from its bytes, and is fit to run with the signatures, which can all be read; then it finds
the last such program as it is read back. Otherwise it misses, nothing is stored for the script
afterwards, and what is stored for other scripts stays. The counts of the cache are those of the
lookups, and as many programs are stored as there are keys whose program counts. It is assumed that no
two of the scripts have one digest and that what is stored has machine size. -/
theorem lookups_follow_history {history : List Operation} {source : String} {natives : Dict String}
    (hsized : ∀ o ∈ history, o.Sized)
    (hapart : Service.Apart ((source, natives) :: history.map Operation.subject)) :
    (∀ q, ((after history).get source natives).1 = .hit q ↔
      ∃ p, Live history (source, natives) p ∧ Serves natives p q) ∧
    ((¬ ∃ p q, Live history (source, natives) p ∧ Serves natives p q) →
      ((after history).get source natives).1 = .miss ∧
      ((after history).get source natives).2.rows.get? (key source natives) = none ∧
      ∀ k, k ≠ key source natives →
        ((after history).get source natives).2.rows.get? k = (after history).rows.get? k) ∧
    (after history).hits + (after history).misses = history.countP Operation.isGet ∧
    ∃ keys : List String, keys.Nodup ∧
      (∀ k, k ∈ keys ↔ ∃ a p, key a.1 a.2 = k ∧ Live history a p) ∧
      (after history).entries = .ok keys.length := by
  have hfollows := follows_after (hapart.mono (List.subset_cons_self _ _)) hsized
  refine ⟨fun q => ?_, fun hnone => ?_, hfollows.counts, hfollows.entries⟩
  · obtain ⟨hnone, hget⟩ | ⟨p, q', hlive, hserves, hget⟩ | ⟨p, hlive, hserves, hget⟩ :=
      hfollows.get_cases hapart hsized
    · rw [hget]
      refine iff_of_false nofun ?_
      rintro ⟨p, hlive, -⟩
      exact hnone p hlive
    · rw [hget]
      constructor
      · rintro ⟨⟩
        exact ⟨p, hlive, hserves⟩
      · rintro ⟨p', hlive', hserves'⟩
        cases hlive'.unique hlive
        rw [hserves.unique hserves']
    · rw [hget]
      refine iff_of_false nofun ?_
      rintro ⟨p', hlive', hserves'⟩
      cases hlive'.unique hlive
      exact hserves q hserves'
  · obtain ⟨hno, hget⟩ | ⟨p, q, hlive, hserves, hget⟩ | ⟨p, hlive, hserves, hget⟩ :=
      hfollows.get_cases hapart hsized
    · rw [hget]
      refine ⟨rfl, Option.eq_none_iff_forall_ne_some.mpr fun row hrow => ?_, fun _ _ => rfl⟩
      obtain ⟨p, hlive, -⟩ := (hfollows.row_iff hapart row).mp hrow
      exact hno p hlive
    · exact absurd ⟨p, q, hlive, hserves⟩ hnone
    · rw [hget]
      exact ⟨rfl, Dict.get?_erase_self _ _, fun k hk => Dict.get?_erase_of_ne _ hk⟩

/-- A program that calls a host function with one argument. -/
def callLog : Program :=
  ⟨Dict.insert ∅ topLevel
    { name := topLevel
      params? := some []
      code? := some #[{ op := .value, line := 1 }, { op := .call, name := "log", line := 1 }] }⟩

/-- A program without a top level is stored and dropped by a lookup; the next program that is stored for
the script is found. -/
theorem lookups_follow_history_replaced :
    let natives : Dict String := Dict.insert ∅ "log" "log(x)"
    let history : List Operation :=
      [.put "log(0)" natives (some ⟨∅⟩), .get "log(0)" natives, .put "log(0)" natives (some callLog)]
    ((after history).get "log(0)" natives).1 = .hit callLog.stored ∧
      (after history).hits + (after history).misses = 1 := by
  intro natives history
  have hsized : ∀ o ∈ history, o.Sized := by
    intro o ho
    obtain rfl | rfl | rfl : o = .put "log(0)" natives (some ⟨∅⟩) ∨ o = .get "log(0)" natives ∨
        o = .put "log(0)" natives (some callLog) := by simpa [history] using ho
    · exact ⟨nofun, by decide +kernel⟩
    · exact trivial
    · exact ⟨Program.forall_get?_iff.mpr (by decide +kernel), by decide +kernel⟩
  have hapart : Service.Apart (("log(0)", natives) :: history.map Operation.subject) := by
    have hone : ∀ a ∈ ("log(0)", natives) :: history.map Operation.subject,
        a = ("log(0)", natives) := by simp [history, Operation.subject]
    exact fun a ha b hb _ => (hone a ha).trans (hone b hb).symm
  have hread : Wire.decode (Wire.encode callLog) = .ok callLog.stored :=
    Wire.decode_encode_stored (by decide +kernel) (by decide +kernel)
  have hserves : Serves natives callLog callLog.stored :=
    ⟨hread, Dict.toList (Dict.insert ∅ "log" 1), by decide +kernel, by decide +kernel⟩
  have hlive : Live history ("log(0)", natives) callLog :=
    ⟨[.put "log(0)" natives (some ⟨∅⟩), .get "log(0)" natives], [], rfl,
      fun _ => List.not_mem_nil, fun hget => nomatch hget⟩
  obtain ⟨hhit, -, hcounts, -⟩ := lookups_follow_history hsized hapart
  exact ⟨(hhit callLog.stored).mpr ⟨callLog, hlive, hserves⟩, hcounts⟩

end LineScript.Cache
