/-
  Machine/Callbacks.lean --- the variables of one callback over a run.

  The native calls that a run makes on the objects of a callback are its history.
  `CallbackStep` lists what a step may do to the variables that those objects reach, and
  `CallbackOk` says what they hold, given the history: the table of an entry callback
  starts from the frame below it, and each call is one more entry of the log.
-/
import JvmHookFramework.Machine.Handles
import JvmHookFramework.Native.ForcedReturn
import JvmHookFramework.Native.WriteBack

set_option autoImplicit false

namespace JvmHookFramework

open Foundation ArgumentsNative ForceEarlyReturnNative

/-! ## The history of a callback -/

/-- The native call that a step makes on an object of the callback `c`. -/
def callOn (c : CallbackId) (s : State) : Label → List HandleOp
  | .native h op => if (s.handles[h]?).bind Handle.address = some c then [op] else []
  | _ => []

/-- The native calls that a run makes on the objects of the callback `c`, in order. -/
def callsOn (jvm : Jvm) (c : CallbackId) (ls : List Label) : List HandleOp :=
  emitted (step jvm) (callOn c) initialState ls

def HandleOp.put? : HandleOp → Option (Int × PutOp)
  | .put op index => some (index, op)
  | _ => none

def HandleOp.ret? : HandleOp → Option ReturnOp
  | .ret op => some op
  | _ => none

/-- The `put*` calls among native calls. -/
def putsOf (calls : List HandleOp) : List (Int × PutOp) := calls.filterMap HandleOp.put?

/-- The `return*` calls among native calls. -/
def returnsOf (calls : List HandleOp) : List ReturnOp := calls.filterMap HandleOp.ret?

theorem putsOf_concat (calls : List HandleOp) (op : HandleOp) :
    putsOf (calls ++ [op]) = putsOf calls ++ op.put?.toList := by
  unfold putsOf
  rw [List.filterMap_append]
  cases hop : op.put? <;> simp [hop]

theorem returnsOf_concat (calls : List HandleOp) (op : HandleOp) :
    returnsOf (calls ++ [op]) = returnsOf calls ++ op.ret?.toList := by
  unfold returnsOf
  rw [List.filterMap_append]
  cases hop : op.ret? <;> simp [hop]

/-! ## What a step does to a callback -/

/-- The variables of a callback that native calls change. -/
def Callback.cells (cb : Callback) : List CallParameter × CallParameter :=
  (cb.parameters, cb.returnForce)

/-- How a step that makes the given native calls on the objects of `c` may leave the
variables of `c`. -/
inductive CallbackStep (s s' : State) (c : CallbackId) : List HandleOp → Prop where
  | kept (hcells : (s'.callbacks[c]?).map Callback.cells = (s.callbacks[c]?).map Callback.cells)
      (hrefs : s.refs.Extends s'.refs) : CallbackStep s s' c []
  | begins {cb : Callback} (hnew : s.callbacks[c]? = none) (hcb : s'.callbacks[c]? = some cb)
      (hforce : cb.returnForce = {}) (hrefs : s.refs.Extends s'.refs) : CallbackStep s s' c []
  | called {op : HandleOp} {o : Handle} {cb : Callback} {outcome : CallOutcome}
      (ho : o ∈ s.handles) (haddress : o.address = some c) (hcb : s.callbacks[c]? = some cb)
      (hcall : op.call o.cls (some cb) s.refs = some outcome)
      (hcb' : s'.callbacks[c]? = some (outcome.2.1.getD cb)) (hrefs : s'.refs = outcome.2.2) :
      CallbackStep s s' c [op]

/-- A native call leaves the references that exist alone. -/
theorem HandleOp.call_extends {op : HandleOp} {cls : HandleClass} {cb : Option Callback}
    {refs : JniRefs} {outcome : CallOutcome} (h : op.call cls cb refs = some outcome) :
    refs.Extends outcome.2.2 := by
  cases op with
  | put op index =>
      cases cls with
      | argumentsNative size thisObj =>
          obtain rfl := Option.some.inj h
          exact op.call_extends _ _ _ refs
      | _ => cases h
  | ret op =>
      cases cls with
      | forceEarlyReturnNative =>
          obtain rfl := Option.some.inj h
          exact op.call_extends _ refs
      | _ => cases h
  | toMethod =>
      cases cls with
      | methodInfoImpl =>
          cases cb with
          | none =>
              obtain rfl := Option.some.inj h
              exact JniRefs.Extends.refl refs
          | some cb =>
              obtain rfl := Option.some.inj h
              exact JniRefs.Extends.refl refs
      | _ => cases h
  | get =>
      cases cls with
      | argumentsNative size thisObj =>
          obtain rfl := Option.some.inj h
          exact JniRefs.Extends.refl refs
      | _ => cases h
  | as =>
      cases cls with
      | jvmReturnValueImpl e isE =>
          obtain rfl := Option.some.inj h
          exact JniRefs.Extends.refl refs
      | _ => cases h

section

variable {jvm : Jvm} {s s' : State} {t : Tid} {l : Label}

theorem callbackStep_of_eq (c : CallbackId) (hcallbacks : s'.callbacks = s.callbacks)
    (hrefs : s'.refs = s.refs) : CallbackStep s s' c [] := by
  refine .kept (by rw [hcallbacks]) ?_
  rw [hrefs]
  exact JniRefs.Extends.refl s.refs

theorem callbackStep_of_append (c : CallbackId) {cb : Callback} (hforce : cb.returnForce = {})
    (hcallbacks : s'.callbacks = s.callbacks ++ [cb]) (hrefs : s'.refs = s.refs) :
    CallbackStep s s' c [] := by
  have hextends : s.refs.Extends s'.refs := hrefs ▸ JniRefs.Extends.refl s.refs
  rcases Nat.lt_trichotomy c s.callbacks.length with hlt | heq | hgt
  · refine .kept ?_ hextends
    rw [hcallbacks, List.getElem?_append_left hlt]
  · subst heq
    refine .begins (List.getElem?_eq_none (Nat.le_refl _)) ?_ hforce hextends
    rw [hcallbacks, List.getElem?_concat_length]
  · refine .kept ?_ hextends
    rw [hcallbacks, List.getElem?_eq_none (Nat.le_of_lt hgt), List.getElem?_eq_none]
    rw [List.length_append]
    exact hgt

theorem callbackStep_of_return (c : CallbackId) {d : CallbackId}
    (hcallbacks : s'.callbacks = s.callbacks.modify d fun cb => { cb with returned := true })
    (hrefs : s.refs.Extends s'.refs) : CallbackStep s s' c [] := by
  refine .kept ?_ hrefs
  rw [hcallbacks, List.getElem?_modify]
  cases s.callbacks[c]? with
  | none => rfl
  | some cb =>
      simp only [Option.map_eq_map, Option.map_some]
      split <;> rfl

theorem Step.callback (h : Step jvm s l s') (c : CallbackId) :
    CallbackStep s s' c (callOn c s l) := by
  cases h with
  | callBroadcast => exact callbackStep_of_append c rfl rfl rfl
  | leaveBroadcast => exact callbackStep_of_append c rfl rfl rfl
  | finishEntry =>
      exact callbackStep_of_return c rfl
        ((writeParameters_extends _ _ _).trans (forceReturn_extends _ _ _))
  | finishExit => exact callbackStep_of_return c rfl (forceReturn_extends _ _ _)
  | nativeInert hhandle haddress =>
      simp only [callOn, hhandle, Option.bind_some, haddress, reduceCtorEq, if_false]
      exact callbackStep_of_eq c rfl rfl
  | nativeLive hhandle haddress hcb hrunning hcall =>
      rename_i h op o d cb outcome
      simp only [callOn, hhandle, Option.bind_some, haddress, Option.some.injEq]
      split
      · rename_i hdc
        subst hdc
        refine .called (List.mem_of_getElem? hhandle) haddress hcb hcall ?_ rfl
        rw [List.getElem?_modify_eq, hcb]
        rfl
      · rename_i hdc
        refine .kept ?_ (HandleOp.call_extends hcall)
        exact congrArg _ (List.getElem?_modify_ne _ s.callbacks hdc)
  | _ => exact callbackStep_of_eq c rfl rfl

end

/-! ## Entry callbacks and the activations below them -/

/-- The entry callbacks of a stack, each with the activation below it. -/
def entries : List Frame → List (CallbackId × Activation)
  | .methodEntry c :: .activation a :: rest => (c.callback, a) :: entries rest
  | _ :: rest => entries rest
  | [] => []

@[simp] theorem entries_activation (a : Activation) (rest : List Frame) :
    entries (.activation a :: rest) = entries rest := by
  rw [entries]
  nofun

@[simp] theorem entries_methodEntry (c : EntryCall) (a : Activation) (rest : List Frame) :
    entries (.methodEntry c :: .activation a :: rest) = (c.callback, a) :: entries rest := by
  rw [entries]

@[simp] theorem entries_methodExit (c : ExitCall) (rest : List Frame) :
    entries (.methodExit c :: rest) = entries rest := by
  rw [entries]
  nofun

@[simp] theorem entries_classPrepare (rest : List Frame) :
    entries (.classPrepare :: rest) = entries rest := by
  rw [entries]
  nofun

/-- The loop of an entry callback does not matter. -/
theorem entries_loop (c : EntryCall) (loop : Option Nat) (rest : List Frame) :
    entries (.methodEntry { c with loop := loop } :: rest) = entries (.methodEntry c :: rest) := by
  rcases rest with _ | ⟨_ | _ | _ | _, rest⟩ <;> simp [entries]

theorem exists_of_entries {frames : List Frame} {c : CallbackId} {a : Activation}
    (h : (c, a) ∈ entries frames) : ∃ e, .methodEntry e ∈ frames ∧ e.callback = c := by
  induction frames using entries.induct with
  | case1 e b rest ih =>
      rw [entries_methodEntry, List.mem_cons] at h
      rcases h with heq | h
      · exact ⟨e, List.mem_cons_self, (Prod.mk.inj heq).1.symm⟩
      · obtain ⟨e', he', hcallback⟩ := ih h
        exact ⟨e', List.mem_cons_of_mem _ (List.mem_cons_of_mem _ he'), hcallback⟩
  | case2 f rest hnot ih =>
      rw [entries] at h
      · obtain ⟨e', he', hcallback⟩ := ih h
        exact ⟨e', List.mem_cons_of_mem _ he', hcallback⟩
      · exact hnot
  | case3 => cases h

theorem mem_owners_of_methodEntry {frames : List Frame} {e : EntryCall}
    (h : .methodEntry e ∈ frames) :
    (e.callback, [e.anc, e.forceERN, e.inf]) ∈ owners frames :=
  List.mem_filterMap.mpr ⟨_, h, rfl⟩

/-- An entry callback runs. -/
theorem mem_owners_of_entries {frames : List Frame} {c : CallbackId} {a : Activation}
    (h : (c, a) ∈ entries frames) : c ∈ (owners frames).map Prod.fst := by
  obtain ⟨e, he, rfl⟩ := exists_of_entries h
  exact List.mem_map_of_mem (mem_owners_of_methodEntry he)

section

variable {jvm : Jvm} {s s' : State} {t : Tid} {l : Label} {c : CallbackId} {a : Activation}

/-- An entry callback on a stack was there before the step, or begins in it. -/
theorem ThreadStep.mem_entries {info : HookInvokingInfo} {stack : List Frame}
    (h : ThreadStep jvm s t l info stack) (hmem : (c, a) ∈ entries stack) :
    (c, a) ∈ entries (s.stack t) ∨
      ∃ method frame, l = .call t method frame ∧ a = entered method frame ∧
        c = s.callbacks.length := by
  cases h with
  | idle => exact Or.inl hmem
  | ended => cases hmem
  | called hguard =>
      rw [entries_activation] at hmem
      exact Or.inl hmem
  | entryBegins hpasses hcallback =>
      rw [entries_methodEntry, List.mem_cons] at hmem
      rcases hmem with heq | hmem
      · obtain ⟨rfl, rfl⟩ := Prod.mk.inj heq
        exact Or.inr ⟨_, _, rfl, rfl, hcallback⟩
      · exact Or.inl hmem
  | left hstack =>
      rw [hstack, entries_activation]
      exact Or.inl hmem
  | exitBegins hstack =>
      rw [entries_methodExit] at hmem
      rw [hstack]
      exact Or.inl hmem
  | prepareBegins =>
      rw [entries_classPrepare] at hmem
      exact Or.inl hmem
  | entryLoops hstack =>
      rw [entries_loop] at hmem
      rw [hstack]
      exact Or.inl hmem
  | exitLoops hstack =>
      rw [entries_methodExit] at hmem
      rw [hstack, entries_methodExit]
      exact Or.inl hmem
  | entryEnds hstack =>
      rw [entries_activation] at hmem
      rw [hstack, entries_methodEntry]
      exact Or.inl (List.mem_cons_of_mem _ hmem)
  | exitEnds hstack =>
      rw [hstack, entries_methodExit, entries_activation]
      exact Or.inl hmem
  | prepareEnds hstack =>
      rw [hstack, entries_classPrepare]
      exact Or.inl hmem

/-- The table of an entry callback is read from the frame of the method called. -/
theorem Step.parameters_call {method : JmethodID} {frame : Locals} {cb : Callback}
    (h : Step jvm s (.call t method frame) s')
    (hcb : s'.callbacks[s.callbacks.length]? = some cb) :
    readParameters frame (jvm.methodDesc method) (jvm.isStatic method) = some cb.parameters := by
  have hold : s.callbacks[s.callbacks.length]? = none := List.getElem?_eq_none (Nat.le_refl _)
  cases h with
  | callUnhooked => exact nomatch hold.symm.trans hcb
  | callSuppressed => exact nomatch hold.symm.trans hcb
  | callBroadcast halive hpasses hread =>
      obtain rfl := Option.some.inj ((List.getElem?_concat_length).symm.trans hcb)
      exact hread

/-- The `size` of an `ArgumentsNative` is `n`. -/
def HandleClass.Sized (cls : HandleClass) (n : Nat) : Prop :=
  match cls with
  | .argumentsNative size _ => size = n
  | _ => True

theorem State.mem_newHandles {cls₁ cls₂ cls₃ : HandleClass} {o : Handle}
    (ho : o ∈ (((s.newHandle cls₁ c).newHandle cls₂ c).newHandle cls₃ c).handles) :
    o ∈ s.handles ∨ o = ⟨cls₁, some c, c⟩ ∨ o = ⟨cls₂, some c, c⟩ ∨ o = ⟨cls₃, some c, c⟩ := by
  simpa [State.newHandle, or_assoc] using ho

/-- Objects lose their address or begin with it, sized by the table of their callback. -/
theorem Step.mem_handles {o : Handle} (h : Step jvm s l s') (ho : o ∈ s'.handles)
    (haddress : o.address = some c) :
    o ∈ s.handles ∨ c = s.callbacks.length ∧
      ∃ cb, s'.callbacks[c]? = some cb ∧ o.cls.Sized cb.parameters.length := by
  have hclear : ∀ {s₁ : State} {h : HandleId}, o ∈ (s₁.clearAddress h).handles →
      o ∈ s₁.handles := by
    intro s₁ h hmem
    obtain ⟨i, hi⟩ := List.mem_iff_getElem?.mp hmem
    exact List.mem_of_getElem? (State.getElem?_clearAddress hi haddress).2
  cases h with
  | callBroadcast =>
      refine (State.mem_newHandles ho).imp_right fun hnew => ?_
      rcases hnew with rfl | rfl | rfl <;> obtain rfl := Option.some.inj haddress
      · exact ⟨rfl, _, List.getElem?_concat_length, rfl⟩
      · exact ⟨rfl, _, List.getElem?_concat_length, trivial⟩
      · exact ⟨rfl, _, List.getElem?_concat_length, trivial⟩
  | leaveBroadcast =>
      refine (State.mem_newHandles ho).imp_right fun hnew => ?_
      rcases hnew with rfl | rfl | rfl <;> obtain rfl := Option.some.inj haddress
      all_goals exact ⟨rfl, _, List.getElem?_concat_length, trivial⟩
  | finishEntry => exact Or.inl (hclear (hclear (hclear ho)))
  | finishExit => exact Or.inl (hclear (hclear (hclear (hclear ho))))
  | _ => exact Or.inl ho

end

/-! ## What a call on an object does -/

section

variable {op : HandleOp} {cls : HandleClass} {cb : Callback} {refs : JniRefs}
  {outcome : CallOutcome}

/-- Only a `put*` changes a table. -/
theorem HandleOp.call_parameters (h : op.call cls (some cb) refs = some outcome)
    (hput : op.put? = none) : (outcome.2.1.getD cb).parameters = cb.parameters := by
  cases op with
  | put op index => cases hput
  | _ =>
      cases cls <;> first
        | (obtain rfl := Option.some.inj h; rfl)
        | cases h

/-- Only a `return*` changes a record. -/
theorem HandleOp.call_returnForce (h : op.call cls (some cb) refs = some outcome)
    (hret : op.ret? = none) : (outcome.2.1.getD cb).returnForce = cb.returnForce := by
  cases op with
  | ret op => cases hret
  | _ =>
      cases cls <;> first
        | (obtain rfl := Option.some.inj h; rfl)
        | cases h

theorem HandleOp.call_length (h : op.call cls (some cb) refs = some outcome)
    (hsized : cls.Sized cb.parameters.length) :
    (outcome.2.1.getD cb).parameters.length = cb.parameters.length := by
  cases op with
  | put op index =>
      cases cls with
      | argumentsNative size thisObj =>
          obtain rfl : size = cb.parameters.length := hsized
          obtain rfl := Option.some.inj h
          exact op.length_call cb.parameters index refs
      | _ => cases h
  | _ => rw [HandleOp.call_parameters h rfl]

/-- A call is one more entry of the log of its table, if it is a `put*`. -/
theorem HandleOp.call_table {log : List (Int × PutOp)} {table₀ : List CallParameter}
    (h : op.call cls (some cb) refs = some outcome) (hsized : cls.Sized cb.parameters.length)
    (htable : TableOk refs log table₀ cb.parameters) :
    TableOk outcome.2.2 (log ++ op.put?.toList) table₀ (outcome.2.1.getD cb).parameters := by
  cases hput : op.put? with
  | none =>
      rw [Option.toList_none, List.append_nil, HandleOp.call_parameters h hput]
      exact htable.extends (HandleOp.call_extends h)
  | some call =>
      cases op with
      | put op index =>
          obtain rfl := Option.some.inj hput
          cases cls with
          | argumentsNative size thisObj =>
              obtain rfl : size = cb.parameters.length := hsized
              obtain rfl := Option.some.inj h
              obtain ⟨table, htable', hok⟩ := htable.call (index, op)
              have hparameters : ((op.call (some cb.parameters) cb.parameters.length index
                  refs).2.1).getD cb.parameters = table := by
                rw [htable', Option.getD_some]
              rw [← hparameters] at hok
              exact hok
          | _ => cases h
      | _ => cases hput

/-- A call is one more entry of the log of its record, if it is a `return*`. -/
theorem HandleOp.call_force {log : List ReturnOp} (h : op.call cls (some cb) refs = some outcome)
    (hforce : ForceOk refs log cb.returnForce) :
    ForceOk outcome.2.2 (log ++ op.ret?.toList) (outcome.2.1.getD cb).returnForce := by
  cases hret : op.ret? with
  | none =>
      rw [Option.toList_none, List.append_nil, HandleOp.call_returnForce h hret]
      exact hforce.extends (HandleOp.call_extends h)
  | some retOp =>
      cases op with
      | ret op =>
          obtain rfl := Option.some.inj hret
          cases cls with
          | forceEarlyReturnNative =>
              obtain rfl := Option.some.inj h
              obtain ⟨c, hcall, hok⟩ := hforce.call op
              have hrecord : (op.call (some cb.returnForce) refs).1.getD cb.returnForce = c := by
                rw [hcall, Option.getD_some]
              rw [← hrecord] at hok
              exact hok
          | _ => cases h
      | _ => cases hret

end

/-! ## The invariant -/

/-- What the history of the callback `c` says about its variables. -/
structure CallbackOk (jvm : Jvm) (c : CallbackId) (calls : List HandleOp) (s : State) : Prop where
  handles : HandlesOk s
  fresh : s.callbacks[c]? = none → calls = []
  sized : ∀ o ∈ s.handles, o.address = some c → ∀ cb, s.callbacks[c]? = some cb →
    o.cls.Sized cb.parameters.length
  /-- The table of an entry callback of a method with a legal descriptor. -/
  table : ∀ t a (d : MethodDescriptor), (c, a) ∈ entries (s.stack t) →
    jvm.methodDesc a.method = d.render → ∀ cb, s.callbacks[c]? = some cb →
      TableOk s.refs (putsOf calls)
        (cellsOf a.frame (if jvm.isStatic a.method then 0 else 1) (scanned d.params))
        cb.parameters
  force : ∀ cb, s.callbacks[c]? = some cb → ForceOk s.refs (returnsOf calls) cb.returnForce

section

variable {jvm : Jvm} {s s' : State} {t : Tid} {l : Label} {c : CallbackId}
  {calls : List HandleOp}

theorem callbackOk_initial (jvm : Jvm) (c : CallbackId) : CallbackOk jvm c [] initialState where
  handles := handlesOk_initial
  fresh := fun _ => rfl
  sized := by
    intro o ho
    cases ho
  table := by
    intro t a d hmem
    cases hmem
  force := by
    intro cb hcb
    cases hcb

/-- Nothing of a callback that is still to come is there. -/
theorem CallbackOk.not_entry (h : CallbackOk jvm c calls s) {a : Activation}
    (hmem : (c, a) ∈ entries (s.stack t)) : s.callbacks[c]? ≠ none := by
  obtain ⟨cb, hcb, _⟩ := h.handles.running t c (mem_owners_of_entries hmem)
  exact hcb ▸ Option.some_ne_none cb

theorem CallbackOk.not_address (h : CallbackOk jvm c calls s) {o : Handle} (ho : o ∈ s.handles)
    (haddress : o.address = some c) : s.callbacks[c]? ≠ none := by
  obtain ⟨i, hi⟩ := List.mem_iff_getElem?.mp ho
  obtain ⟨_, t, hs, hmem, _⟩ := h.handles.owned i o c hi haddress
  obtain ⟨cb, hcb, _⟩ := h.handles.running t c (List.mem_map_of_mem hmem)
  exact hcb ▸ Option.some_ne_none cb

theorem CallbackOk.kept (h : CallbackOk jvm c calls s) (hstep : Step jvm s l s')
    (hok : HandlesOk s')
    (hcells : (s'.callbacks[c]?).map Callback.cells = (s.callbacks[c]?).map Callback.cells)
    (hrefs : s.refs.Extends s'.refs) : CallbackOk jvm c calls s' := by
  have hback : ∀ cb', s'.callbacks[c]? = some cb' → ∃ cb, s.callbacks[c]? = some cb ∧
      cb'.parameters = cb.parameters ∧ cb'.returnForce = cb.returnForce := by
    intro cb' hcb'
    rw [hcb', Option.map_some] at hcells
    obtain ⟨cb, hcb, heq⟩ := Option.map_eq_some_iff.mp hcells.symm
    obtain ⟨hparameters, hforce⟩ := Prod.mk.inj heq
    exact ⟨cb, hcb, hparameters.symm, hforce.symm⟩
  have hold : ∀ cb', s'.callbacks[c]? = some cb' → c ≠ s.callbacks.length := by
    intro cb' hcb'
    obtain ⟨cb, hcb, _⟩ := hback cb' hcb'
    exact Nat.ne_of_lt (List.getElem?_eq_some_iff.mp hcb).1
  refine ⟨hok, fun hnone => ?_, fun o ho haddress cb' hcb' => ?_,
    fun t a d hmem hdesc cb' hcb' => ?_, fun cb' hcb' => ?_⟩
  · rw [hnone, Option.map_none] at hcells
    exact h.fresh (Option.map_eq_none_iff.mp hcells.symm)
  · obtain ⟨cb, hcb, hparameters, _⟩ := hback cb' hcb'
    rw [hparameters]
    rcases hstep.mem_handles ho haddress with ho | ⟨hnew, _⟩
    · exact h.sized o ho haddress cb hcb
    · exact absurd hnew (hold cb' hcb')
  · obtain ⟨cb, hcb, hparameters, _⟩ := hback cb' hcb'
    rw [hparameters]
    rcases (hstep.thread t).mem_entries hmem with hmem | ⟨_, _, _, _, hnew⟩
    · exact (h.table t a d hmem hdesc cb hcb).extends hrefs
    · exact absurd hnew (hold cb' hcb')
  · obtain ⟨cb, hcb, _, hforce⟩ := hback cb' hcb'
    rw [hforce]
    exact (h.force cb hcb).extends hrefs

theorem CallbackOk.begins (h : CallbackOk jvm c calls s) (hstep : Step jvm s l s')
    (hok : HandlesOk s') {cb : Callback} (hnew : s.callbacks[c]? = none)
    (hcb : s'.callbacks[c]? = some cb) (hforce : cb.returnForce = {}) :
    CallbackOk jvm c calls s' := by
  obtain rfl := h.fresh hnew
  have honly : ∀ cb', s'.callbacks[c]? = some cb' → cb' = cb :=
    fun cb' hcb' => Option.some.inj (hcb'.symm.trans hcb)
  refine ⟨hok, fun _ => rfl, fun o ho haddress cb' hcb' => ?_,
    fun t a d hmem hdesc cb' hcb' => ?_, fun cb' hcb' => ?_⟩
  · rcases hstep.mem_handles ho haddress with ho | ⟨_, cb₁, hcb₁, hsized⟩
    · exact absurd hnew (h.not_address ho haddress)
    · rwa [honly cb' hcb', ← honly cb₁ hcb₁]
  · obtain rfl := honly cb' hcb'
    rcases (hstep.thread t).mem_entries hmem with hmem | ⟨method, frame, rfl, rfl, rfl⟩
    · exact absurd hnew (h.not_entry hmem)
    · have hread := hstep.parameters_call hcb'
      have hmethod : jvm.methodDesc method = d.render := hdesc
      rw [hmethod, readParameters_scanned] at hread
      rw [← Option.some.inj hread]
      exact tableOk_nil (fun p₀ hp₀ => known_of_mem_cellsOf hp₀)
        (fun p₀ hp₀ => edited_of_mem_cellsOf hp₀)
  · rw [honly cb' hcb', hforce]
    exact forceOk_nil s'.refs

theorem CallbackOk.called (h : CallbackOk jvm c calls s) (hstep : Step jvm s l s')
    (hok : HandlesOk s') {op : HandleOp} {o : Handle} {cb : Callback} {outcome : CallOutcome}
    (ho : o ∈ s.handles) (haddress : o.address = some c) (hcb : s.callbacks[c]? = some cb)
    (hcall : op.call o.cls (some cb) s.refs = some outcome)
    (hcb' : s'.callbacks[c]? = some (outcome.2.1.getD cb)) (hrefs : s'.refs = outcome.2.2) :
    CallbackOk jvm c (calls ++ [op]) s' := by
  have hsized := h.sized o ho haddress cb hcb
  have hold : c ≠ s.callbacks.length := Nat.ne_of_lt (List.getElem?_eq_some_iff.mp hcb).1
  have honly : ∀ cb₁, s'.callbacks[c]? = some cb₁ → cb₁ = outcome.2.1.getD cb :=
    fun cb₁ hcb₁ => Option.some.inj (hcb₁.symm.trans hcb')
  refine ⟨hok, fun hnone => ?_, fun o' ho' haddress' cb₁ hcb₁ => ?_,
    fun t a d hmem hdesc cb₁ hcb₁ => ?_, fun cb₁ hcb₁ => ?_⟩
  · rw [hcb'] at hnone
    cases hnone
  · rw [honly cb₁ hcb₁, HandleOp.call_length hcall hsized]
    rcases hstep.mem_handles ho' haddress' with ho' | ⟨hnew, _⟩
    · exact h.sized o' ho' haddress' cb hcb
    · exact absurd hnew hold
  · rw [honly cb₁ hcb₁, hrefs, putsOf_concat]
    rcases (hstep.thread t).mem_entries hmem with hmem | ⟨_, _, _, _, hnew⟩
    · exact HandleOp.call_table hcall hsized (h.table t a d hmem hdesc cb hcb)
    · exact absurd hnew hold
  · rw [honly cb₁ hcb₁, hrefs, returnsOf_concat]
    exact HandleOp.call_force hcall (h.force cb hcb)

theorem CallbackOk.step (h : CallbackOk jvm c calls s) (hstep : step jvm s l = some s') :
    CallbackOk jvm c (calls ++ callOn c s l) s' := by
  have hcases := step_cases hstep
  have hok := h.handles.step hstep
  have hcallback := hcases.callback c
  generalize callOn c s l = emitted at hcallback ⊢
  cases hcallback with
  | kept hcells hrefs =>
      rw [List.append_nil]
      exact h.kept hcases hok hcells hrefs
  | begins hnew hcb hforce hrefs =>
      rw [List.append_nil]
      exact h.begins hcases hok hnew hcb hforce
  | called ho haddress hcb hcall hcb' hrefs =>
      exact h.called hcases hok ho haddress hcb hcall hcb' hrefs

/-- The variables of a callback at the end of a run. -/
theorem callbackOk_of_run {ls : List Label} (hrun : run (step jvm) initialState ls = some s) :
    CallbackOk jvm c (callsOn jvm c ls) s :=
  run_history (fun _ _ _ _ hok hstep => hok.step hstep) (callbackOk_initial jvm c) hrun

end

end JvmHookFramework
