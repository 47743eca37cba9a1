/-
# Runs set members of objects

Objects are shared by reference and assigned to from anywhere: by the name of a member, through an index, or
where a literal makes the object. Every such assignment is one instruction, and the state before it tells the
object, the key and the value. So a run has a history of settings, and this history is all that happens to the
objects.

An instruction that sets a member finds the object it refers to, since references lead somewhere. No other
instruction changes an object, and no standard host function does. Both are shown together, by what one step
preserves, and they hold of every program: nothing is asked of its code.
-/

import LineScript.Proofs.References

namespace LineScript.Machine

open LineScript.Code

/-! ## Settings -/

/-- A member of an object is given a value. -/
structure Setting where
  place : Nat
  key : String
  value : Value

/-- What an instruction sets when it is carried out. One that names the member finds the object below the
value, one that assigns through an index finds it below the index and the value. -/
def State.settingOf? (s : State) (i : Instruction) : Option Setting :=
  match i.op with
  | .set =>
    match s.drop.top with
    | .ref (.object place) => some ⟨place, i.name, s.top⟩
    | _ => none
  | .put =>
    match s.drop.drop.top, s.drop.top with
    | .ref (.object place), .string key => some ⟨place, key, s.top⟩
    | _, _ => none
  | _ => none

/-- What the next instruction sets when it is carried out. -/
def State.setting? (s : State) : Option Setting := s.instruction?.bind s.settingOf?

/-- What a history assigns to the members of one object. -/
def assignedTo (place : Nat) (history : List Setting) : List (String × Value) :=
  (history.filter (·.place = place)).map fun a => (a.key, a.value)

theorem assignedTo_append (place : Nat) (first second : List Setting) :
    assignedTo place (first ++ second) = assignedTo place first ++ assignedTo place second := by
  rw [assignedTo, List.filter_append, List.map_append]
  rfl

theorem assignedTo_cons_self (place : Nat) (key : String) (v : Value) (rest : List Setting) :
    assignedTo place (⟨place, key, v⟩ :: rest) = (key, v) :: assignedTo place rest := by
  simp [assignedTo]

theorem assignedTo_cons_of_ne {a : Setting} {place : Nat} (hne : a.place ≠ place) (rest : List Setting) :
    assignedTo place (a :: rest) = assignedTo place rest := by
  simp [assignedTo, hne]

namespace Heap

variable {h h' h'' : Heap} {place : Nat}

/-- Where there is no object, none has members. -/
theorem object_of_size_le (hplace : h.objects.size ≤ place) : h.object place = {} := by
  rw [object, Array.getD_eq_getD_getElem?, Array.getElem?_eq_none hplace]
  rfl

theorem object_newObject_of_ne (hne : place ≠ h.objects.size) (o : Object) :
    (h.newObject o).2.object place = h.object place := by
  change (h.objects.push o).getD place {} = h.objects.getD place {}
  rw [Array.getD_eq_getD_getElem?, Array.getD_eq_getD_getElem?, Array.getElem?_push, if_neg hne]

/-- From one heap to another, nothing happens to the objects but settings. -/
def Sets (h : Heap) (settings : List Setting) (h' : Heap) : Prop :=
  ∀ place, h'.object place = (h.object place).setAll (assignedTo place settings)

namespace Sets

theorem of_objects_eq (hobjects : h'.objects = h.objects) : h.Sets [] h' :=
  fun place => congrArg (·.getD place {}) hobjects

theorem trans {first second : List Setting} (hfirst : h.Sets first h') (hsecond : h'.Sets second h'') :
    h.Sets (first ++ second) h'' := by
  intro place
  rw [hsecond, hfirst, assignedTo_append]
  exact List.foldl_append.symm

/-- A new object is as empty as a missing one. -/
theorem newObject (h : Heap) : h.Sets [] (h.newObject {}).2 := by
  intro place
  by_cases hplace : place = h.objects.size
  · subst hplace
    rw [object_newObject, object_of_size_le (Nat.le_refl _)]
    rfl
  · exact object_newObject_of_ne hplace {}

theorem setMember (hplace : h.Has (.object place)) (key : String) (v : Value) :
    h.Sets [⟨place, key, v⟩] (h.setMember place key v) := by
  intro q
  by_cases hq : place = q
  · subst hq
    rw [object_setMember hplace, assignedTo_cons_self]
    rfl
  · rw [assignedTo_cons_of_ne hq]
    exact getD_modify_of_ne hq _ _

end Sets

end Heap

/-! ## States without dangling references -/

/-- All references in a state lead somewhere, and the host functions are standard ones. -/
structure State.Grounded (s : State) : Prop where
  heap : s.heap.Closed
  stack : ∀ v ∈ s.stack.toList, s.heap.Knows v
  globals : s.heap.Binds s.globals
  locals : ∀ frame ∈ s.frame :: s.callers, ∀ locals, frame.locals? = some locals → s.heap.Binds locals
  natives : Standard s.natives

/-- A transition after which there are no dangling references. When it goes on, the objects of a heap have
changed by what was to be set, and not at all when it is the last one. -/
def Transition.Tracks (h : Heap) (settings : List Setting) : Transition → Prop
  | .next s => s.Grounded ∧ h.Sets settings s.heap
  | .finished _ s | .failed _ s | .breakdown _ s => s.Grounded ∧ h.Sets [] s.heap

namespace State.Grounded

variable {s : State} {v : Value} {settings : List Setting}

theorem top (h : s.Grounded) : s.heap.Knows s.top :=
  Heap.knows_getD fun _ hv => h.stack _ (Array.mem_toList_iff.mpr (Array.mem_of_back? hv))

theorem push (h : s.Grounded) (hv : s.heap.Knows v) : (s.push v).Grounded := by
  refine ⟨h.heap, fun w hw => ?_, h.globals, h.locals, h.natives⟩
  rcases Array.mem_push.mp (Array.mem_toList_iff.mp hw) with hold | rfl
  · exact h.stack w (Array.mem_toList_iff.mpr hold)
  · exact hv

/-- Taking values off the stack leaves the others. -/
theorem of_sublist {stack : Array Value} (h : s.Grounded) (hstack : stack.toList.Sublist s.stack.toList) :
    { s with stack := stack }.Grounded :=
  ⟨h.heap, fun v hv => h.stack v (hstack.subset hv), h.globals, h.locals, h.natives⟩

theorem drop (h : s.Grounded) : s.drop.Grounded := by
  have hpopped : s.stack.pop.toList.Sublist s.stack.toList := by
    rw [Array.toList_pop]
    exact List.dropLast_sublist _
  exact h.of_sublist hpopped

theorem shrink (h : s.Grounded) (base : Nat) : { s with stack := s.stack.shrink base }.Grounded := by
  refine h.of_sublist ?_
  rw [Array.toList_shrink]
  exact List.take_sublist _ _

theorem withHeap (h : s.Grounded) {f : Heap → Heap} (hclosed : (f s.heap).Closed)
    (hgrows : s.heap.Grows (f s.heap)) : (s.mapHeap f).Grounded :=
  ⟨hclosed, fun v hv => (h.stack v hv).grow hgrows, h.globals.grow hgrows,
    fun frame hframe locals hlocals => (h.locals frame hframe locals hlocals).grow hgrows, h.natives⟩

theorem load (h : s.Grounded) (name : String) : s.heap.Knows (s.load name) := by
  have hlocals : s.heap.Binds s.locals := by
    unfold State.locals
    cases hframe : s.frame.locals? with
    | none => exact h.globals
    | some locals => exact h.locals _ List.mem_cons_self locals hframe
  unfold State.load
  dsimp only
  split
  · exact Heap.knows_getD (hlocals name)
  · exact Heap.knows_getD (h.globals name)

theorem store (h : s.Grounded) (hv : s.heap.Knows v) (name : String) : (s.store name v).Grounded := by
  unfold State.store
  split
  · rename_i locals hdeclares hframe
    refine ⟨h.heap, h.stack, h.globals, fun frame hmem => ?_, h.natives⟩
    rcases List.mem_cons.mp hmem with rfl | hcaller
    · rintro _ ⟨⟩
      exact (h.locals _ List.mem_cons_self locals hframe).insert hv name
    · exact h.locals frame (List.mem_cons_of_mem _ hcaller)
  · exact ⟨h.heap, h.stack, h.globals.insert hv name, h.locals, h.natives⟩

theorem heap_store (s : State) (name : String) (v : Value) : (s.store name v).heap = s.heap := by
  unfold State.store
  split <;> rfl

theorem jump (h : s.Grounded) (target : Int) : (s.jump target).Grounded := by
  refine ⟨h.heap, h.stack, h.globals, fun frame hmem => ?_, h.natives⟩
  rcases List.mem_cons.mp hmem with rfl | hcaller
  · exact h.locals s.frame List.mem_cons_self
  · exact h.locals frame (List.mem_cons_of_mem _ hcaller)

/-! ### Transitions -/

theorem next (h : s.Grounded) : (Transition.next s).Tracks s.heap [] := ⟨h, .of_objects_eq rfl⟩

theorem fail (h : s.Grounded) (cause : Cause) : (s.fail cause).Tracks s.heap settings :=
  ⟨h, .of_objects_eq rfl⟩

theorem next_store (h : s.Grounded) (hv : s.heap.Knows v) (name : String) :
    (Transition.next (s.store name v)).Tracks s.heap [] :=
  ⟨h.store hv name, .of_objects_eq (by rw [heap_store])⟩

theorem pushing (h : s.Grounded) {r : Except Cause Value} (hr : ∀ v, r = .ok v → s.heap.Knows v) :
    (s.pushing r).Tracks s.heap [] := by
  cases r with
  | ok v => exact (h.push (hr v rfl)).next
  | error cause => exact h.fail cause

theorem withTop (h : s.Grounded) {k : Value → State → Transition}
    (hk : (k s.top s).Tracks s.heap settings) : (s.withTop k).Tracks s.heap settings := by
  unfold State.withTop
  split
  · exact hk
  · exact h.fail .underflow

theorem popping (h : s.Grounded) {k : Value → State → Transition}
    (hk : (k s.top s.drop).Tracks s.heap settings) : (s.popping k).Tracks s.heap settings := by
  unfold State.popping
  split
  · exact hk
  · exact h.fail .underflow

theorem popping2 (h : s.Grounded) {k : Value → Value → State → Transition}
    (hk : (k s.drop.top s.top s.drop.drop).Tracks s.heap settings) :
    (s.popping2 k).Tracks s.heap settings :=
  h.popping (h.drop.popping hk)

theorem leave (h : s.Grounded) (hv : s.heap.Knows v) : (s.leave v).Tracks s.heap [] := by
  obtain ⟨stack, frame, callers, globals, world, natives, steps, trace?⟩ := s
  have hshrunk := h.shrink frame.base
  cases callers with
  | nil => exact ⟨hshrunk, .of_objects_eq rfl⟩
  | cons caller callers =>
      have hpushed := hshrunk.push hv
      exact ⟨⟨hpushed.heap, hpushed.stack, hpushed.globals,
        fun frame hframe => hpushed.locals frame (List.mem_cons_of_mem _ hframe), hpushed.natives⟩,
        .of_objects_eq rfl⟩

/-- The variables of a call have their values from the stack. -/
theorem binds_arguments {h : Heap} {values : List Value} (hvalues : ∀ v ∈ values, h.Knows v)
    (params : List String) : h.Binds (arguments params values) := by
  suffices hfold : ∀ (pairs : List (String × Value)) (vars : Dict Value), (∀ e ∈ pairs, h.Knows e.2) →
      h.Binds vars → h.Binds (pairs.foldl (fun vars e => vars.insert e.1 e.2) vars) from
    hfold _ ∅ (fun e he => hvalues e.2 (List.of_mem_zip he).2) fun _ _ hv => nomatch hv
  intro pairs
  induction pairs with
  | nil => exact fun vars _ hvars => hvars
  | cons e rest ih =>
      intro vars hpairs hvars
      obtain ⟨he, hrest⟩ := List.forall_mem_cons.mp hpairs
      exact ih _ hrest (hvars.insert he e.1)

theorem knows_of_mem_extract (h : s.Grounded) (first last : Nat) :
    ∀ v ∈ (s.stack.extract first last).toList, s.heap.Knows v := by
  intro v hv
  rw [Array.toList_extract] at hv
  exact h.stack v (List.mem_of_mem_drop (List.mem_of_mem_take hv))

theorem enter (h : s.Grounded) (limits : Limits) (name : String) (f : Function) :
    (s.enter limits name f).Tracks s.heap [] := by
  unfold State.enter
  dsimp only
  split
  · exact h.fail _
  · split
    · exact h.fail .depthLimit
    · have hshrunk := h.shrink (s.stack.size - f.arity)
      refine ⟨⟨h.heap, hshrunk.stack, h.globals, fun frame hframe => ?_, h.natives⟩, .of_objects_eq rfl⟩
      rcases List.mem_cons.mp hframe with rfl | hcaller
      · rintro _ ⟨⟩
        exact binds_arguments (h.knows_of_mem_extract _ _) _
      · exact h.locals frame hcaller

/-- A standard host function spares the objects, and its calls are counted. -/
theorem answer (h : s.Grounded) {name : String} {bound : Bound}
    (hbound : s.natives.get? name = some bound) {args : List Value} (hargs : ∀ v ∈ args, s.heap.Knows v) :
    (s.answer name bound args).Tracks s.heap [] := by
  obtain ⟨out, e, he, hnative⟩ := h.natives name bound hbound
  obtain ⟨stack, frame, callers, globals, world, natives, steps, trace?⟩ := s
  obtain ⟨⟨hclosed, hgrows, hobjects⟩, hvalue⟩ :=
    hnative ▸ Native.sparing_standard out e he (bound.calls + 1) args world h.heap hargs
  have hsets : world.heap.Sets [] (bound.native.run (bound.calls + 1) args world).2.heap :=
    .of_objects_eq hobjects
  have hgrounded : ∀ natives', Standard natives' →
      (⟨stack, frame, callers, globals, (bound.native.run (bound.calls + 1) args world).2, natives',
        steps, trace?⟩ : State).Grounded := fun natives' hnatives =>
    ⟨hclosed, fun v hv => (h.stack v hv).grow hgrows, h.globals.grow hgrows,
      fun frame hframe locals hlocals => (h.locals frame hframe locals hlocals).grow hgrows, hnatives⟩
  unfold State.answer
  dsimp only
  split
  · rename_i v world' hrun
    rw [hrun] at hvalue hgrounded hsets
    refine ⟨(hgrounded _ ?_).push (hvalue v rfl), hsets⟩
    exact Dict.forall_get?_insert ⟨out, e, he, hnative⟩ h.natives
  · rename_i detail world' hrun
    rw [hrun] at hgrounded hsets
    exact ⟨hgrounded _ h.natives, hsets⟩
  · rename_i detail world' hrun
    rw [hrun] at hgrounded hsets
    exact ⟨hgrounded _ h.natives, hsets⟩

theorem call (h : s.Grounded) (p : Program) (limits : Limits) (name : String) :
    (s.call p limits name).Tracks s.heap [] := by
  unfold State.call
  split
  · exact h.enter limits name _
  · split
    · rename_i bound hbound
      unfold State.ask
      split
      · exact h.fail _
      · split
        · exact ⟨h, .of_objects_eq rfl⟩
        · exact (h.shrink _).answer hbound (h.knows_of_mem_extract _ _)
    · exact h.fail (.undefinedFunction name)

/-! ### Instructions -/

/-- An instruction sets what it is known to set, and changes no object otherwise. -/
theorem execute (h : s.Grounded) (p : Program) (limits : Limits) (i : Instruction) :
    (s.execute p limits i).Tracks s.heap (s.settingOf? i).toList := by
  obtain ⟨op, literal, name, target, line⟩ := i
  unfold State.execute State.settingOf?
  cases op <;> dsimp only
  case value =>
    refine (h.push ?_).next
    unfold Value.ofLiteral
    split <;> exact nofun
  case pop => exact h.popping (h.drop.next)
  case load => exact (h.push (h.load name)).next
  case store => exact h.popping (h.drop.next_store h.top name)
  case list =>
    have hgrows := Heap.grows_newList s.heap #[]
    have hclosed := h.heap.newList fun v hv => absurd hv (Array.not_mem_empty v)
    refine ⟨(h.withHeap (f := fun h => (h.newList #[]).2) hclosed hgrows).push ?_, .of_objects_eq rfl⟩
    rintro _ ⟨⟩
    exact (Heap.newer_newList s.heap #[]).2
  case object =>
    have hgrows := Heap.grows_newObject s.heap {}
    have hclosed := h.heap.newObject (o := {}) fun _ _ hv => nomatch hv
    refine ⟨(h.withHeap (f := fun h => (h.newObject {}).2) hclosed hgrows).push ?_, .newObject _⟩
    rintro _ ⟨⟩
    exact (Heap.newer_newObject s.heap {}).2
  case append =>
    refine h.popping (h.drop.withTop ?_)
    split
    · rename_i place hlist
      have hgrows := Heap.grows_append s.heap place s.top
      exact ⟨h.drop.withHeap (h.heap.append h.top place) hgrows, .of_objects_eq rfl⟩
    · exact h.drop.fail _
  case set =>
    refine h.popping (h.drop.withTop ?_)
    have hknown := h.drop.top
    generalize s.drop.top = c at hknown ⊢
    rcases c with _ | _ | _ | _ | (_ | place)
    case ref.object =>
      have hgrows := Heap.grows_setMember s.heap place name s.top
      exact ⟨h.drop.withHeap (h.heap.setMember h.top place name) hgrows,
        .setMember (hknown _ rfl) name s.top⟩
    all_goals exact h.drop.fail (.wrongKind _ _)
  case get =>
    refine h.popping ?_
    split
    · exact (h.drop.push (Heap.knows_getD fun w hw => h.heap.object _ _ w hw)).next
    · exact h.drop.fail (.wrongKind _ _)
  case put =>
    refine h.popping (h.drop.popping2 ?_)
    have hknown := h.drop.drop.top
    generalize s.drop.drop.top = c at hknown ⊢
    generalize s.drop.top = index
    rcases c with _ | _ | _ | _ | (place | place)
    case ref.list =>
      dsimp only [slot]
      cases position index (s.drop.drop.drop.heap.list place).size with
      | error cause => exact h.drop.drop.drop.fail cause
      | ok i =>
          have hgrows := Heap.grows_setElement s.heap place i s.top
          exact ⟨h.drop.drop.drop.withHeap (h.heap.setElement h.top place i) hgrows, .of_objects_eq rfl⟩
    case ref.object =>
      cases index with
      | string key =>
          have hgrows := Heap.grows_setMember s.heap place key s.top
          exact ⟨h.drop.drop.drop.withHeap (h.heap.setMember h.top place key) hgrows,
            .setMember (hknown _ rfl) key s.top⟩
      | _ => exact h.drop.drop.drop.fail (.keyNotString _)
    all_goals exact h.drop.drop.drop.fail (.wrongKind _ _)
  case call => exact h.call p limits name
  case ret => exact h.popping (h.drop.leave h.top)
  case jump => exact (h.jump target).next
  case branch =>
    refine h.popping ?_
    split
    · exact h.drop.next
    · exact (h.drop.jump target).next
  case skipAnd =>
    refine h.withTop ?_
    split
    · exact h.next
    · exact (h.jump target).next
  case skipOr =>
    refine h.withTop ?_
    split
    · exact (h.jump target).next
    · exact h.next
  case not =>
    refine h.popping ((h.drop.push ?_).next)
    exact nofun
  case negate =>
    refine h.popping ?_
    split
    · refine (h.drop.push ?_).next
      exact nofun
    · exact h.drop.fail (.wrongKind _ _)
  case and | or | equal | notEqual =>
    refine h.popping2 ((h.drop.drop.push ?_).next)
    exact nofun
  case index =>
    exact h.popping2 (h.drop.drop.pushing fun v hv => knows_of_element h.heap hv)
  case add => exact h.popping2 (h.drop.drop.pushing fun v hv => knows_of_add hv)
  case subtract | multiply | divide =>
    exact h.popping2 (h.drop.drop.pushing fun v hv => knows_of_arithmetic hv)
  case less | lessOrEqual | greater | greaterOrEqual =>
    exact h.popping2 (h.drop.drop.pushing fun v hv => knows_of_compare hv)
  case unassigned => exact h.fail _

/-! ### Steps -/

theorem begin (h : s.Grounded) (trace? : Option String) : { s.begin with trace? := trace? }.Grounded := by
  refine ⟨h.heap, h.stack, h.globals, fun frame hmem => ?_, h.natives⟩
  rcases List.mem_cons.mp hmem with rfl | hcaller
  · exact h.locals s.frame List.mem_cons_self
  · exact h.locals frame (List.mem_cons_of_mem _ hcaller)

/-- One step keeps all references, and sets what the state before tells. -/
theorem step (h : s.Grounded) (p : Program) (limits : Limits) (cancelled : Bool) :
    (s.step p limits cancelled).Tracks s.heap s.setting?.toList := by
  unfold State.step State.setting? State.instruction?
  split
  · exact ⟨h, .of_objects_eq rfl⟩
  dsimp only
  split
  · rename_i hnone
    rw [hnone]
    exact h.leave nofun
  · rename_i i hi
    have hbegun : s.begin.Grounded := h.begin s.begin.trace?
    rw [hi]
    split
    · exact hbegun.fail .stepLimit
    · split
      · exact hbegun.fail .cancelled
      · obtain ⟨trace?, hrecorded⟩ := recorded_eq s.begin s.frame.ip.toNat i
        rw [hrecorded]
        exact (h.begin trace?).execute p limits i

theorem reachable {p : Program} {limits : Limits} {first : State} (hfirst : first.Grounded)
    (h : Reachable p limits first s) : s.Grounded := by
  induction h with
  | first => exact hfirst
  | @next s s' cancelled _ hstep ih =>
      have htracks := ih.step p limits cancelled
      rw [hstep] at htracks
      exact htracks.1

end State.Grounded

/-! ## Runs -/

/-- What a run sets within its patience. -/
def settings (p : Program) (limits : Limits) (cancelled : Bool) : Nat → State → List Setting
  | 0, _ => []
  | patience + 1, s =>
    match s.step p limits cancelled with
    | .next s' => s.setting?.toList ++ settings p limits cancelled patience s'
    | _ => []

/-- However long a run goes on and however it ends, all references lead somewhere, and the objects have
changed by what the run has set. -/
theorem State.Grounded.proceed {p : Program} {limits : Limits} {cancelled : Bool} (patience : Nat) {s : State}
    (h : s.Grounded) :
    (proceed p limits cancelled patience s).2.Grounded ∧
      s.heap.Sets (settings p limits cancelled patience s) (proceed p limits cancelled patience s).2.heap := by
  induction patience generalizing s with
  | zero => exact ⟨h, .of_objects_eq rfl⟩
  | succ patience ih =>
      have htracks := h.step p limits cancelled
      unfold Machine.proceed settings
      cases hstep : s.step p limits cancelled with
      | next s' =>
          rw [hstep] at htracks
          obtain ⟨hnext, hsets⟩ := htracks
          obtain ⟨hlast, hrest⟩ := ih hnext
          exact ⟨hlast, hsets.trans hrest⟩
      | finished _ s' | failed _ s' | breakdown _ s' =>
          rw [hstep] at htracks
          exact htracks

end LineScript.Machine
