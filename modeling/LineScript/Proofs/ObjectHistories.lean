/-
# Objects hold what was assigned to them last

A machine is used for one run after the other, and between the runs its host assigns globals. All that happens
to the objects meanwhile is that members are set, so every object is what its settings make of a new one: its
keys stand in the order in which they were first set, each with the value that it was set to last.

The host functions and the instructions that look at an object take its row of keys or its map of values, some
of them both. Since these have the same keys, all of them show the same members.
-/

import LineScript.Proofs.LoopFreeRuns
import LineScript.Proofs.ObjectSettings
import LineScript.Proofs.Sessions

namespace LineScript.Machine

open LineScript.Code

/-! ## Data that hosts build -/

namespace Heap

mutual

/-- What is set when data are built: the members of each object in their order, and what a member is built of
before the member itself. -/
def built (h : Heap) : Data → List Setting
  | .list items => builtItems h items
  | .object members => builtMembers h (h.buildMembers {} members).2.objects.size members
  | .null | .number _ | .string _ | .boolean _ => []

/-- What is set when data are built in a row. -/
def builtItems (h : Heap) : List Data → List Setting
  | [] => []
  | item :: rest => built h item ++ builtItems (h.build item).2 rest

/-- What is set when members are built for the object that is to stand at a place. -/
def builtMembers (h : Heap) (place : Nat) : List (String × Data) → List Setting
  | [] => []
  | (key, member) :: rest =>
    built h member ++ ⟨place, key, (h.build member).1⟩ :: builtMembers (h.build member).2 place rest

end

/-- From one heap to another, there are new containers and settings, of objects that are there in the end. -/
structure Builds (h : Heap) (settings : List Setting) (h' : Heap) : Prop where
  closed : h'.Closed
  grows : h.Grows h'
  sets : h.Sets settings h'
  bounded : ∀ a ∈ settings, a.place < h'.objects.size

/-- The same while an object is made that is to stand at a place behind all others: what is set there is set
of this object. -/
structure BuildsObject (h : Heap) (o : Object) (place : Nat) (settings : List Setting) (o' : Object)
    (h' : Heap) : Prop where
  closed : h'.Closed
  grows : h.Grows h'
  sets : ∀ q, q ≠ place → h'.object q = (h.object q).setAll (assignedTo q settings)
  object : o' = o.setAll (assignedTo place settings)
  known : ∀ key v, o'.get? key = some v → h'.Knows v
  bounded : ∀ a ∈ settings, a.place < h'.objects.size ∨ a.place = place

variable {h h' h'' : Heap} {first second : List Setting}

theorem Grows.size_le (hgrows : h.Grows h') : h.objects.size ≤ h'.objects.size :=
  Nat.le_of_not_lt fun hlt => Nat.lt_irrefl _ (hgrows (.object h'.objects.size) hlt)

theorem Grows.trans (hfirst : h.Grows h') (hsecond : h'.Grows h'') : h.Grows h'' :=
  fun r hr => hsecond r (hfirst r hr)

namespace Builds

theorem of_objects_eq (hclosed : h'.Closed) (hgrows : h.Grows h') (hobjects : h'.objects = h.objects) :
    h.Builds [] h' :=
  ⟨hclosed, hgrows, .of_objects_eq hobjects, List.forall_mem_nil _⟩

theorem trans (hfirst : h.Builds first h') (hsecond : h'.Builds second h'') :
    h.Builds (first ++ second) h'' := by
  refine ⟨hsecond.closed, hfirst.grows.trans hsecond.grows, hfirst.sets.trans hsecond.sets, ?_⟩
  rw [List.forall_mem_append]
  exact ⟨fun a ha => Nat.lt_of_lt_of_le (hfirst.bounded a ha) hsecond.grows.size_le, hsecond.bounded⟩

/-- What is built before an object is not set at its place. -/
theorem assignedTo_eq_nil (hbuilds : h.Builds first h') {place : Nat} (hplace : h'.objects.size ≤ place) :
    assignedTo place first = [] := by
  rw [assignedTo, List.map_eq_nil_iff, List.filter_eq_nil_iff]
  intro a ha
  have hlt := hbuilds.bounded a ha
  simp only [decide_eq_true_eq]
  omega

end Builds

mutual

theorem builds_build : ∀ (d : Data) (h : Heap), h.Closed →
    h.Builds (h.built d) (h.build d).2 ∧ (h.build d).2.Knows (h.build d).1
  | .null, h, hclosed | .number _, h, hclosed | .string _, h, hclosed | .boolean _, h, hclosed =>
    ⟨.of_objects_eq hclosed (fun _ hr => hr) rfl, nofun⟩
  | .list items, h, hclosed => by
      obtain ⟨hbuilds, hknown⟩ := builds_buildItems items h hclosed
      have hgrows := grows_newList (h.buildItems items).2 (h.buildItems items).1.toArray
      have hnew := hbuilds.closed.newList fun v hv => hknown v (List.mem_toArray.mp hv)
      refine ⟨?_, ?_⟩
      · have := hbuilds.trans (.of_objects_eq hnew hgrows rfl)
        rw [List.append_nil] at this
        exact this
      · rintro _ ⟨⟩
        exact (newer_newList _ _).2
  | .object members, h, hclosed => by
      have hmembers := builds_buildMembers members h {} _ hclosed (fun _ _ hv => nomatch hv) (Nat.le_refl _)
      have hgrows := grows_newObject (h.buildMembers {} members).2 (h.buildMembers {} members).1
      refine ⟨⟨hmembers.closed.newObject hmembers.known, hmembers.grows.trans hgrows, fun q => ?_,
        fun a ha => ?_⟩, ?_⟩
      · by_cases hq : q = (h.buildMembers {} members).2.objects.size
        · subst hq
          rw [object_of_size_le hmembers.grows.size_le]
          exact (object_newObject _ _).trans hmembers.object
        · exact (object_newObject_of_ne hq _).trans (hmembers.sets q hq)
      · refine Nat.lt_of_lt_of_eq ?_ (Array.size_push _).symm
        rcases hmembers.bounded a ha with hlt | heq
        · exact Nat.lt_succ_of_lt hlt
        · exact heq ▸ Nat.lt_succ_self _
      · rintro _ ⟨⟩
        exact (newer_newObject _ _).2

theorem builds_buildItems : ∀ (items : List Data) (h : Heap), h.Closed →
    h.Builds (h.builtItems items) (h.buildItems items).2 ∧
      ∀ v ∈ (h.buildItems items).1, (h.buildItems items).2.Knows v
  | [], h, hclosed => ⟨.of_objects_eq hclosed (fun _ hr => hr) rfl, List.forall_mem_nil _⟩
  | item :: rest, h, hclosed => by
      obtain ⟨hitem, hknown⟩ := builds_build item h hclosed
      obtain ⟨hrest, hall⟩ := builds_buildItems rest (h.build item).2 hitem.closed
      exact ⟨hitem.trans hrest, List.forall_mem_cons.mpr ⟨hknown.grow hrest.grows, hall⟩⟩

theorem builds_buildMembers : ∀ (members : List (String × Data)) (h : Heap) (o : Object) (place : Nat),
    h.Closed → (∀ key v, o.get? key = some v → h.Knows v) →
    (h.buildMembers o members).2.objects.size ≤ place →
    h.BuildsObject o place (h.builtMembers place members) (h.buildMembers o members).1
      (h.buildMembers o members).2
  | [], h, o, place, hclosed, hknown, _ =>
    ⟨hclosed, fun _ hr => hr, fun _ _ => rfl, rfl, hknown, List.forall_mem_nil _⟩
  | (key, member) :: rest, h, o, place, hclosed, hknown, hplace => by
      obtain ⟨hmember, hvalue⟩ := builds_build member h hclosed
      have hset : ∀ k v, (o.set key (h.build member).1).get? k = some v → (h.build member).2.Knows v := by
        intro k v hv
        by_cases hsame : k = key
        · subst hsame
          rw [Object.get?_set_self] at hv
          cases hv
          exact hvalue
        · rw [Object.get?_set_of_ne _ _ hsame] at hv
          exact (hknown k v hv).grow hmember.grows
      have hrest := builds_buildMembers rest (h.build member).2 (o.set key (h.build member).1) place
        hmember.closed hset hplace
      have hbefore := hmember.assignedTo_eq_nil (Nat.le_trans hrest.grows.size_le hplace)
      refine ⟨hrest.closed, hmember.grows.trans hrest.grows, fun q hq => ?_, ?_, hrest.known, ?_⟩
      · rw [builtMembers, assignedTo_append, assignedTo_cons_of_ne (Ne.symm hq), Object.setAll,
          List.foldl_append]
        exact (hrest.sets q hq).trans (congrArg (Object.setAll · _) (hmember.sets q))
      · rw [builtMembers, assignedTo_append, hbefore, assignedTo_cons_self]
        exact hrest.object
      · rw [builtMembers, List.forall_mem_append, List.forall_mem_cons]
        exact ⟨fun a ha => .inl (Nat.lt_of_lt_of_le (hmember.bounded a ha) hrest.grows.size_le), .inr rfl,
          hrest.bounded⟩

end

end Heap

end LineScript.Machine

namespace LineScript

open LineScript.Code

namespace Machine

/-! ## Machines in use -/

/-- What can be done with a machine: a program runs on it for some time, or the host assigns a global. -/
inductive Use where
  | run (p : Program) (patience : Nat) (cancelled : Bool)
  | assign (name : String) (data : Data)

/-- The machine after it was used. -/
def Use.apply (m : Machine) : Use → Machine
  | .run p patience cancelled => (m.runFor patience p cancelled).machine
  | .assign name data => m.setGlobal name data

/-- What is set when a machine is used. -/
def Use.settings (m : Machine) : Use → List Setting
  | .run p patience cancelled =>
    match p.main? with
    | none => []
    | some main => Machine.settings p m.limits cancelled patience (m.start main)
  | .assign _ data => m.heap.built data

/-- The machine after it was used several times. -/
def after (m : Machine) (uses : List Use) : Machine := uses.foldl Use.apply m

/-- All that is set when a machine is used several times. -/
def history (m : Machine) : List Use → List Setting
  | [] => []
  | use :: uses => use.settings m ++ (use.apply m).history uses

/-- A machine without dangling references, with standard host functions. -/
structure Grounded (m : Machine) : Prop where
  heap : m.heap.Closed
  globals : m.heap.Binds m.globals
  natives : Standard m.natives

namespace Grounded

variable {m : Machine}

theorem start (h : m.Grounded) (main : Function) : (m.start main).Grounded := by
  refine ⟨h.heap, List.forall_mem_nil _, h.globals, fun frame hframe locals hlocals => ?_, h.natives⟩
  cases List.mem_singleton.mp hframe
  cases hlocals

theorem runFor (h : m.Grounded) (p : Program) (patience : Nat) (cancelled : Bool) :
    (m.runFor patience p cancelled).machine.Grounded ∧
      m.heap.Sets ((Use.run p patience cancelled).settings m) (m.runFor patience p cancelled).machine.heap := by
  unfold Machine.runFor Use.settings
  dsimp only
  cases p.main? with
  | none => exact ⟨h, .of_objects_eq rfl⟩
  | some main =>
      obtain ⟨hlast, hsets⟩ :
          (proceed p m.limits cancelled patience (m.start main)).2.Grounded ∧
            m.heap.Sets (Machine.settings p m.limits cancelled patience (m.start main))
              (proceed p m.limits cancelled patience (m.start main)).2.heap :=
        (h.start main).proceed patience
      exact ⟨⟨hlast.heap, hlast.globals, hlast.natives⟩, hsets⟩

theorem setGlobal (h : m.Grounded) (name : String) (data : Data) :
    (m.setGlobal name data).Grounded ∧ m.heap.Sets (m.heap.built data) (m.setGlobal name data).heap := by
  obtain ⟨hbuilds, hknown⟩ := Heap.builds_build data m.heap h.heap
  exact ⟨⟨hbuilds.closed, (h.globals.grow hbuilds.grows).insert hknown name, h.natives⟩, hbuilds.sets⟩

theorem apply (h : m.Grounded) (use : Use) :
    (use.apply m).Grounded ∧ m.heap.Sets (use.settings m) (use.apply m).heap := by
  cases use with
  | run p patience cancelled => exact h.runFor p patience cancelled
  | assign name data => exact h.setGlobal name data

/-- However a machine is used, the objects change by what is set. -/
theorem after (h : m.Grounded) (uses : List Use) :
    (m.after uses).Grounded ∧ m.heap.Sets (m.history uses) (m.after uses).heap := by
  induction uses generalizing m with
  | nil => exact ⟨h, .of_objects_eq rfl⟩
  | cons use uses ih =>
      obtain ⟨huse, hsets⟩ := h.apply use
      obtain ⟨hlast, hrest⟩ := ih huse
      exact ⟨hlast, hsets.trans hrest⟩

end Grounded

end Machine

namespace Registry

open LineScript.Machine

/-- A fresh machine with the standard host functions has no containers and no globals. -/
theorem grounded_host {out : Native.Writer} {limits : Limits} {tracing : Bool} {host : Host}
    (h : (Registry.standard out).host limits tracing = .ok host) :
    host.machine.Grounded ∧ host.machine.heap = {} := by
  have hbind := bindAll_of_machine (host_eq_ok h).2
  have hsame := bindAll_eq (Registry.standard out).entries { limits := limits, tracing := tracing }
  have hnatives : Standard _ := forall_get?_bindAll (fun e he _ => ⟨out, e, he, rfl⟩)
    (m := { limits := limits, tracing := tracing }) fun _ _ hb => nomatch hb
  rw [hbind] at hsame hnatives
  have hheap : host.machine.heap = {} := congrArg Machine.heap hsame
  have hglobals : host.machine.globals = ∅ := congrArg Machine.globals hsame
  refine ⟨⟨?_, ?_, hnatives⟩, hheap⟩
  · rw [hheap]
    exact Heap.closed_empty
  · rw [hglobals]
    exact fun _ _ hv => nomatch hv

end Registry

namespace Machine

open LineScript.Code

/-! ## Ways to look at objects -/

/-- An object shows these members, whichever way it is looked at: in its row of keys and in its map, through
the host functions for its length and its keys, by a member's name, through an index, as text and as data. -/
structure Heap.Shows (h : Heap) (place : Nat) (members : List (String × Value)) : Prop where
  row : (h.object place).keys = members.map (·.1)
  fields : ∀ key, (h.object place).fields.get? key = members.lookup key
  length : ∀ (calls : Nat) (w : World), w.heap = h → Native.length.run calls [.object place] w =
    (.value (.number (Number.ofNat members.length)), w)
  keys : ∀ (calls : Nat) (w : World), w.heap = h → Native.keys.run calls [.object place] w =
    (.value (.list h.lists.size),
      { w with heap := (h.newList (members.map fun m => .string m.1).toArray).2 })
  get : ∀ (p : Program) (limits : Limits) (i : Instruction) (s : State), s.heap = h → i.op = .get →
    s.hasTop = true → s.top = .object place →
    s.execute p limits i = .next (s.drop.push ((members.lookup i.name).getD .null))
  index : ∀ key, element h (.object place) (.string key) = .ok ((members.lookup key).getD .null)
  text : h.repr (.object place) = "\x7b" ++ Text.joined ", " (members.map fun (key, v) =>
    key ++ " = " ++ h.textWithin h.size [.object place] true v) ++ "\x7d"
  data : h.data (.object place) = .object (members.map fun (key, v) =>
    (key, h.dataWithin h.size [.object place] v))

/-- The keys of the row are those that have a value, so all looks agree. -/
theorem Heap.shows_members {h : Heap} {place : Nat} (hcoherent : (h.object place).Coherent) :
    h.Shows place (h.object place).members where
  row := (Object.map_fst_members _).symm
  fields key := (hcoherent.lookup_members key).symm
  length calls w hw := by
    subst hw
    rw [← List.length_map (·.1), Object.map_fst_members]
    rfl
  keys calls w hw := by
    subst hw
    have hnames : (w.heap.object place).members.map (fun m => Value.string m.1) =
        (w.heap.object place).keys.map .string := by
      rw [← Object.map_fst_members, List.map_map]
      rfl
    rw [hnames]
    rfl
  get p limits i s hs hop hhas htop := by
    subst hs
    rw [hcoherent.lookup_members]
    unfold State.execute
    rw [hop]
    dsimp only
    unfold State.popping
    rw [if_pos hhas, htop]
    rfl
  index key := by
    rw [hcoherent.lookup_members]
    rfl
  text := rfl
  data := rfl

/-! ## Settings take effect -/

/-- A setting has been made: the key has the value, and nothing else has changed but the row of keys, at whose
end the key stands if it is new. -/
structure Setting.Made (a : Setting) (h h' : Heap) : Prop where
  value : (h'.object a.place).get? a.key = some a.value
  values : ∀ key, key ≠ a.key → (h'.object a.place).get? key = (h.object a.place).get? key
  keys : (h'.object a.place).keys =
    if a.key ∈ (h.object a.place).keys then (h.object a.place).keys else (h.object a.place).keys ++ [a.key]
  others : ∀ place, place ≠ a.place → h'.object place = h.object place

theorem Heap.Sets.made {h h' : Heap} {a : Setting} (hsets : h.Sets [a] h')
    (hcoherent : (h.object a.place).Coherent) : a.Made h h' := by
  have hobject : h'.object a.place = (h.object a.place).set a.key a.value := by
    rw [hsets, assignedTo_cons_self]
    rfl
  refine ⟨?_, fun key hkey => ?_, ?_, fun place hplace => ?_⟩
  · rw [hobject, Object.get?_set_self]
  · rw [hobject, Object.get?_set_of_ne _ _ hkey]
  · rw [hobject, hcoherent.keys_set]
  · rw [hsets, assignedTo_cons_of_ne (Ne.symm hplace)]
    rfl

/-- Row and map stay in step in all objects. -/
theorem Heap.Sets.coherent {h h' : Heap} {settings : List Setting} (hsets : h.Sets settings h')
    (hcoherent : ∀ place, (h.object place).Coherent) (place : Nat) : (h'.object place).Coherent := by
  rw [hsets]
  exact (hcoherent place).setAll _

theorem coherent_reachable {p : Program} {limits : Limits} {first s : State} (hfirst : first.Grounded)
    (hcoherent : ∀ place, (first.heap.object place).Coherent) (h : Reachable p limits first s) :
    ∀ place, (s.heap.object place).Coherent := by
  induction h with
  | first => exact hcoherent
  | @next s s' cancelled hreachable hstep ih =>
      have htracks := (State.Grounded.reachable hfirst hreachable).step p limits cancelled
      rw [hstep] at htracks
      exact htracks.2.coherent ih

/-! ## Reachable heaps -/

/-- A cancellation leads to no state that would not be reached without it. -/
theorem exists_steps_of_reachable {p : Program} {limits : Limits} {first s : State}
    (h : Reachable p limits first s) : ∃ count, Steps p limits count first s := by
  induction h with
  | first => exact ⟨0, .refl _⟩
  | @next s s' cancelled _ hstep ih =>
      obtain ⟨count, hsteps⟩ := ih
      rcases step_cancelled_cases p limits s cancelled with hsame | ⟨-, hcancelled⟩
      · exact ⟨count + 1, hsteps.trans (.step (hsame ▸ hstep) (.refl s'))⟩
      · rw [hcancelled] at hstep
        cases hstep

/-- Whatever state a run comes to, a run of limited patience leaves its heap. -/
theorem exists_runFor_of_reachable {m : Machine} {p : Program} {main : Function} {s : State}
    (hmain : p.main? = some main) (h : Reachable p m.limits (m.start main) s) :
    ∃ patience, (m.runFor patience p).machine.heap = s.heap := by
  obtain ⟨count, hsteps⟩ := exists_steps_of_reachable h
  refine ⟨count, ?_⟩
  have hproceed : proceed p m.limits false count (m.start main) = (.unfinished, s) :=
    proceed_of_steps hsteps 0
  unfold Machine.runFor
  rw [hmain]
  dsimp only
  rw [hproceed]
  rfl

theorem reachable_of_unfinished {p : Program} {limits : Limits} {patience : Nat} {s s' : State}
    (h : proceed p limits false patience s = (.unfinished, s')) : Reachable p limits s s' := by
  suffices ∃ count, Steps p limits count s s' from this.choose_spec.reachable
  induction patience generalizing s with
  | zero =>
      cases h
      exact ⟨0, .refl _⟩
  | succ patience ih =>
      unfold proceed at h
      cases hstep : s.step p limits false <;> rw [hstep] at h
      case next t =>
        obtain ⟨count, hsteps⟩ := ih h
        exact ⟨count + 1, .step hstep hsteps⟩
      all_goals cases h

/-- Objects are finite maps that remember in which order their keys were first set. However a machine with the
standard host functions is used, in every object the row of keys and the map of values have the same keys,
each once. These are the keys that were ever set, in the order of their first setting, each with the value it
was set to last, and that is what an object shows whichever way it is looked at. The heap of any state that a
run comes to is among those left by runs of limited patience, and from such a state the next step sets what
the state tells, and leaves alone all other members of the object and all other objects. -/
theorem objects_hold_latest_settings {out : Native.Writer} {limits : Limits} {tracing : Bool} {host : Host}
    (hhost : (Registry.standard out).host limits tracing = .ok host) (uses : List Use) :
    (∀ place, ((host.machine.after uses).heap.object place).Coherent ∧
      (host.machine.after uses).heap.Shows place
        (Object.latest (assignedTo place (host.machine.history uses)))) ∧
    ∀ (p : Program) (main : Function) (s : State), p.main? = some main →
      Reachable p (host.machine.after uses).limits ((host.machine.after uses).start main) s →
        (∃ patience, (host.machine.after (uses ++ [.run p patience false])).heap = s.heap) ∧
        ∀ cancelled s', s.step p (host.machine.after uses).limits cancelled = .next s' →
          match s.setting? with
          | none => ∀ place, s'.heap.object place = s.heap.object place
          | some a => a.Made s.heap s'.heap := by
  obtain ⟨hnew, hempty⟩ := Registry.grounded_host hhost
  obtain ⟨hgrounded, hsets⟩ := hnew.after uses
  have hobject : ∀ place, (host.machine.after uses).heap.object place =
      Object.after (assignedTo place (host.machine.history uses)) := by
    intro place
    rw [hsets, hempty]
    rfl
  have hcoherent : ∀ place, ((host.machine.after uses).heap.object place).Coherent := by
    intro place
    rw [hobject]
    exact Object.coherent_after _
  refine ⟨fun place => ⟨hcoherent place, ?_⟩, fun p main s hmain hreachable => ⟨?_, fun cancelled s' hstep => ?_⟩⟩
  · rw [← Object.members_after, ← hobject]
    exact Heap.shows_members (hcoherent place)
  · obtain ⟨patience, hheap⟩ := exists_runFor_of_reachable hmain hreachable
    refine ⟨patience, ?_⟩
    rw [Machine.after, List.foldl_append]
    exact hheap
  · have hstart := hgrounded.start main
    obtain ⟨-, hstepped⟩ : s'.Grounded ∧ s.heap.Sets s.setting?.toList s'.heap := by
      have htracks := (State.Grounded.reachable hstart hreachable).step p
        (host.machine.after uses).limits cancelled
      rw [hstep] at htracks
      exact htracks
    cases hsetting : s.setting? with
    | none =>
        rw [hsetting] at hstepped
        exact hstepped
    | some a =>
        rw [hsetting] at hstepped
        exact hstepped.made (coherent_reachable hstart hcoherent hreachable a.place)

/-- An object whose literal has a key twice, and which is then assigned to through an index and by name. -/
def twiceSet : String := "o = \x7bb = 1, a = 2, b = 3\x7d\no[\"c\"] = 4\no.a = 5\n"

/-- The key of the next setting, if the next step goes on. -/
def settingKey? (p : Program) (limits : Limits) (s : State) : Option String :=
  match s.step p limits false with
  | .next _ => s.setting?.map (·.key)
  | _ => none

/-- The second setting of a key changes its value, and the key stays the first one. -/
theorem objects_hold_latest_settings_twiceSet :
    ∃ host p main s s' a, Registry.standard.host {} = .ok host ∧
      host.compiler.compileSource twiceSet = .ok p ∧ p.main? = some main ∧
      Reachable p host.machine.limits (host.machine.start main) s ∧
      s.step p host.machine.limits false = .next s' ∧ s.setting? = some a ∧ a.key = "b" ∧
      a.Made s.heap s'.heap ∧
      (host.machine.after [.run p 100 false]).heap.Shows 0
        (Object.latest (assignedTo 0 (host.machine.history [.run p 100 false]))) ∧
      (Object.latest (assignedTo 0 (host.machine.history [.run p 100 false]))).map (·.1) =
        ["b", "a", "c"] ∧
      (host.machine.after [.run p 100 false]).heap.repr (.object 0) = "\x7bb = 3, a = 5, c = 4\x7d" := by
  have hcheck : ((Registry.standard.host {}).toOption.bind fun host =>
      (host.compiler.compileSource twiceSet).toOption.bind fun p => p.main?.map fun main =>
        (match (proceed p host.machine.limits false 6 (host.machine.start main)).1 with
          | .unfinished => true
          | _ => false,
        settingKey? p host.machine.limits
          (proceed p host.machine.limits false 6 (host.machine.start main)).2,
        (Object.latest (assignedTo 0 (host.machine.history [.run p 100 false]))).map (·.1),
        (host.machine.after [.run p 100 false]).heap.repr (.object 0))) =
      some (true, some "b", ["b", "a", "c"], "\x7bb = 3, a = 5, c = 4\x7d") := by
    decide +kernel
  obtain ⟨host, hhost, hcheck⟩ := Option.bind_eq_some_iff.mp hcheck
  obtain ⟨p, hcompile, hcheck⟩ := Option.bind_eq_some_iff.mp hcheck
  obtain ⟨main, hmain, hcheck⟩ := Option.map_eq_some_iff.mp hcheck
  obtain ⟨⟨outcome, s⟩, hproceed⟩ : ∃ r,
      proceed p host.machine.limits false 6 (host.machine.start main) = r := ⟨_, rfl⟩
  rw [hproceed] at hcheck
  simp only [Prod.mk.injEq] at hcheck
  obtain ⟨hunfinished, hkey, hkeys, htext⟩ := hcheck
  have hhost := Registry.eq_ok_of_toOption hhost
  obtain rfl : outcome = .unfinished := by
    cases outcome
    case unfinished => rfl
    all_goals cases hunfinished
  have hreachable := reachable_of_unfinished hproceed
  unfold settingKey? at hkey
  cases hstep : s.step p host.machine.limits false <;> rw [hstep] at hkey
  case next s' =>
    obtain ⟨a, hsetting, hb⟩ := Option.map_eq_some_iff.mp hkey
    have hmade := ((objects_hold_latest_settings hhost []).2 p main s hmain hreachable).2 false s' hstep
    rw [hsetting] at hmade
    exact ⟨host, p, main, s, s', a, hhost, Registry.eq_ok_of_toOption hcompile, hmain, hreachable, hstep,
      hsetting, hb, hmade, ((objects_hold_latest_settings hhost [.run p 100 false]).1 0).2, hkeys, htext⟩
  all_goals cases hkey

end Machine

end LineScript
