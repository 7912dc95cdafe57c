/-
  Agent/Progress.lean --- the agent gets through its steps, four cases apart.

  A label fits a state when the virtual machine and the Java code can do there what it
  says.  The native code then finds a target under every array, a running callback behind
  every address and an activation below every callback.  The exceptions: `unregisterHook`
  reads through empty slots, a broadcast loop may be past the end of its array or be handed
  a hook that was deleted, and an exit passes on the strings of a callback that has returned.
-/
import JvmHookFramework.Agent.Move
import JvmHookFramework.Agent.Refinement
import JvmHookFramework.Native.DescriptorWalk

set_option autoImplicit false

namespace JvmHookFramework

open Foundation Foundation.SlotChain

/-- JVMTI reports descriptors of the class file format. -/
def Jvm.Legal (jvm : Jvm) : Prop := ∀ m, ∃ d : MethodDescriptor, jvm.methodDesc m = d.render

/-- The class has the native method. -/
def HandleOp.Of : HandleOp → HandleClass → Prop
  | .get _ _, .argumentsNative _ _ | .put _ _, .argumentsNative _ _ => True
  | .ret _, .forceEarlyReturnNative => True
  | .as _, .jvmReturnValueImpl _ _ => True
  | .toMethod, .methodInfoImpl _ _ _ _ => True
  | _, _ => False

/-- What the label says can come next: a thread that lives runs code and prepares classes,
leaves the method on top, calls the next hook until there is none, and ends a broadcast that
is through or whose hook threw; a native method is called on an object that has it. -/
def Label.Fits (s : State) : Label → Prop
  | .register _ _ | .unregister _ _ => True
  | .call t _ _ | .prepare t _ => (s.threads t).ended = false
  | .leave t _ _ => ∃ a rest, s.stack t = .activation a :: rest
  | .broadcast t => ∃ c rest, s.stack t = .methodEntry c :: rest ∧ c.loop = none
  | .dispatch t =>
      (∃ c rest i, s.stack t = .methodEntry c :: rest ∧ c.loop = some i ∧ i < c.hookCount) ∨
        ∃ c rest, s.stack t = .methodExit c :: rest ∧ c.i < c.size
  | .finish t threw =>
      (∃ c rest i, s.stack t = .methodEntry c :: rest ∧ c.loop = some i ∧
        (threw = true ∨ i = c.hookCount)) ∨
      (∃ c rest, s.stack t = .methodExit c :: rest ∧ (threw = true ∨ c.i = c.size)) ∨
        ∃ rest, s.stack t = .classPrepare :: rest
  | .native h op => ∃ o, s.handles[h]? = some o ∧ op.Of o.cls
  | .threadEnd t => s.stack t = [] ∧ (s.threads t).ended = false

/-- The native code gets through the step, and a broadcast loop reads a hook that is in its
array and not deleted. -/
structure Sound (jvm : Jvm) (s : State) (l : Label) : Prop where
  possible : (step jvm s l).isSome = true
  dispatch : ∀ t, DispatchLive jvm t s l

/-- And an exit passes on strings that are alive and those of its method. -/
structure Faultless (jvm : Jvm) (s : State) (l : Label) : Prop extends Sound jvm s l where
  strings : ∀ t, ExitStringsValid jvm t s l

section

variable {jvm : Jvm} {s s' : State} {t : Tid} {l : Label}

/-! ## What the steps rest on -/

theorem view_ok (hreachable : Reachable (step jvm) initialState s) (t : Tid) : (s.view t).Ok := by
  obtain ⟨ls, hrun⟩ := hreachable
  exact Agent.ok_of_reachable ⟨ls, (runs_refine_agent jvm ls s hrun).1⟩ t

/-- Only an activation stands for a method. -/
theorem Frame.eq_activation_of_view {f : Frame} {m : JmethodID} (h : f.view s = .method m) :
    ∃ a, f = .activation a := by
  cases f with
  | activation a => exact ⟨a, rfl⟩
  | methodEntry | methodExit | classPrepare => cases h

/-- A callback of a method stands on an activation. -/
theorem activation_below (hreachable : Reachable (step jvm) initialState s) {f : Frame}
    {rest : List Frame} (hstack : s.stack t = f :: rest)
    (hcallback : (∃ c, f = .methodEntry c) ∨ ∃ c, f = .methodExit c) :
    ∃ a outer, rest = .activation a :: outer := by
  have hgrounded := (view_ok hreachable t).grounded
  rw [State.stack_view hstack, List.map_cons] at hgrounded
  have hbelow : ∃ m outer, rest.map (Frame.view s) = .method m :: outer := by
    rcases hcallback with ⟨c, rfl⟩ | ⟨c, rfl⟩
    · exact hgrounded.1.2.1
    · exact hgrounded.1.2.1
  obtain ⟨m, outer, hmap⟩ := hbelow
  obtain ⟨g, outer', rfl, hg, _⟩ := List.map_eq_cons_iff.mp hmap
  obtain ⟨a, rfl⟩ := Frame.eq_activation_of_view hg
  exact ⟨a, outer', rfl⟩

theorem callback_exists (hreachable : Reachable (step jvm) initialState s) {c : CallbackId}
    {hs : List HandleId} (hc : (c, hs) ∈ owners (s.stack t)) : ∃ cb, s.callbacks[c]? = some cb := by
  obtain ⟨cb, hcb, _⟩ := (handlesOk_of_reachable hreachable).running t c (List.mem_map_of_mem hc)
  exact ⟨cb, hcb⟩

theorem HandleOp.call_isSome (op : HandleOp) (cls : HandleClass) (cb : Option Callback)
    (refs : JniRefs) : (op.call cls cb refs).isSome ↔ op.Of cls := by
  cases op <;> cases cls <;> cases cb <;> simp [HandleOp.call, HandleOp.Of]

/-! ## Each kind of label -/

theorem onMethodEntry_isSome (hlegal : jvm.Legal) (method : JmethodID) (frame : Locals) :
    (onMethodEntry jvm s t method frame).isSome := by
  obtain ⟨d, hd⟩ := hlegal method
  have hread := readParameters_scanned d frame (jvm.isStatic method)
  rw [← hd] at hread
  by_cases hnone : s.registry.hooksOf jvm method = []
  · rw [onMethodEntry, shouldRunHook_of_empty hnone]
    rfl
  · simp only [onMethodEntry, shouldRunHook_of_ne hnone, hread]
    split
    · rfl
    · split <;> rfl

theorem onMethodExit_isSome (hreachable : Reachable (step jvm) initialState s) (a : Activation)
    (rest : List Frame) (popped : Bool) (value : Option Jvalue) :
    (onMethodExit jvm s t a rest popped value).isSome := by
  unfold onMethodExit
  cases hhooks : (s.threads t).getHookInvokingInfo.hooks with
  | none => simp only [hhooks]; rfl
  | some array =>
      obtain ⟨target, htarget⟩ := target_of_hooks hreachable t hhooks
      have htarget' : (s.threads t).getHookInvokingInfo.targetMethod = some target := htarget
      simp only [hhooks, htarget']
      split
      · rfl
      · split <;> rfl

theorem State.native_isSome (hreachable : Reachable (step jvm) initialState s) (h : HandleId)
    (op : HandleOp) :
    (s.native h op).isSome ↔ ∃ o, s.handles[h]? = some o ∧ op.Of o.cls := by
  unfold State.native
  cases ho : s.handles[h]? with
  | none => simp
  | some o =>
      have hcall := fun cb => HandleOp.call_isSome op o.cls cb s.refs
      have hfits : (∃ o', some o = some o' ∧ op.Of o'.cls) ↔ op.Of o.cls := by simp
      rw [hfits]
      cases haddress : o.address with
      | none =>
          rw [← hcall none]
          cases hres : op.call o.cls none s.refs <;> simp [haddress, hres]
      | some c =>
          -- the address leads to a callback that runs
          have hok := handlesOk_of_reachable hreachable
          obtain ⟨_, t, hs, hmem, _⟩ := hok.owned h o c ho haddress
          obtain ⟨cb, hcb, hrunning⟩ := hok.running t c (List.mem_map_of_mem hmem)
          rw [← hcall (some cb)]
          cases hres : op.call o.cls (some cb) s.refs <;> simp [haddress, hcb, hrunning, hres]

theorem dispatch_isSome_iff :
    (step jvm s (.dispatch t)).isSome ↔ (Label.dispatch t).Fits s := by
  simp only [Label.Fits, State.stack, step]
  cases (s.threads t).frames with
  | nil => simp
  | cons f rest =>
      cases f with
      | activation | classPrepare => simp
      | methodEntry c =>
          cases hloop : c.loop with
          | none => simp [hloop]
          | some i => by_cases hlt : i < c.hookCount <;> simp [hloop, hlt]
      | methodExit c => by_cases hlt : c.i < c.size <;> simp [hlt]

theorem finish_isSome_iff (hreachable : Reachable (step jvm) initialState s) (threw : Bool) :
    (step jvm s (.finish t threw)).isSome ↔ (Label.finish t threw).Fits s := by
  unfold step Label.Fits
  cases hstack : s.stack t with
  | nil =>
      have hframes : (s.threads t).frames = [] := hstack
      simp [hstack, hframes]
  | cons f rest =>
      have hframes : (s.threads t).frames = f :: rest := hstack
      cases f with
      | activation | classPrepare => simp [hstack, hframes]
      | methodEntry c =>
          obtain ⟨a, outer, rfl⟩ := activation_below hreachable hstack (Or.inl ⟨c, rfl⟩)
          have howner : (c.callback, [c.anc, c.forceERN, c.inf]) ∈ owners (s.stack t) :=
            List.mem_filterMap.mpr ⟨_, hstack ▸ List.mem_cons_self, rfl⟩
          obtain ⟨cb, hcb⟩ := callback_exists hreachable howner
          cases hloop : c.loop with
          | none => simp [hstack, hframes, hloop]
          | some i =>
              by_cases hend : threw = true ∨ i = c.hookCount <;>
                simp [hstack, hframes, hloop, hcb, hend]
      | methodExit c =>
          obtain ⟨a, outer, rfl⟩ := activation_below hreachable hstack (Or.inr ⟨c, rfl⟩)
          have howner : (c.callback, [c.cc, c.retV, c.metInfo]) ∈ owners (s.stack t) :=
            List.mem_filterMap.mpr ⟨_, hstack ▸ List.mem_cons_self, rfl⟩
          obtain ⟨cb, hcb⟩ := callback_exists hreachable howner
          by_cases hend : threw = true ∨ c.i = c.size <;> simp [hstack, hframes, hcb, hend]

end

/-- In every state that is reached, a step can be taken exactly when its label fits the state
and, where a hook is unregistered, no slot of the registry is empty. -/
theorem step_isSome_iff (jvm : Jvm) (hlegal : jvm.Legal) (s : State) (l : Label)
    (hreachable : Reachable (step jvm) initialState s) :
    (step jvm s l).isSome ↔
      l.Fits s ∧ ∀ method hook, l = .unregister method hook → none ∉ s.registry.slots := by
  cases l with
  | register => simp [step, Label.Fits]
  | unregister method hook =>
      have hcompletes := unregisterHook_isSome jvm s.registry method hook
      have hstep : (step jvm s (.unregister method hook)).isSome ↔ none ∉ s.registry.slots := by
        rw [← hcompletes]
        simp only [step]
        cases unregisterHook jvm s.registry method hook <;> rfl
      rw [hstep]
      exact ⟨fun h => ⟨trivial, fun _ _ _ => h⟩, fun h => h.2 method hook rfl⟩
  | call t method frame =>
      have hsome := @onMethodEntry_isSome jvm s t hlegal method frame
      cases hended : (s.threads t).ended <;> simp [step, Label.Fits, hended, hsome]
  | leave t popped value =>
      have hsome := fun a rest => @onMethodExit_isSome jvm s t hreachable a rest popped value
      simp only [Label.Fits, State.stack, step]
      cases (s.threads t).frames with
      | nil => simp
      | cons f rest => cases f <;> simp [hsome]
  | prepare t klass => cases hended : (s.threads t).ended <;> simp [step, Label.Fits, hended]
  | broadcast t =>
      simp only [Label.Fits, State.stack, step]
      cases (s.threads t).frames with
      | nil => simp
      | cons f rest =>
          cases f with
          | methodEntry c => cases hloop : c.loop <;> simp [hloop]
          | _ => simp
  | dispatch t => simpa using dispatch_isSome_iff
  | finish t threw => simpa using finish_isSome_iff hreachable threw
  | native h op =>
      have hsome := State.native_isSome hreachable h op
      have hstep : (step jvm s (.native h op)).isSome = (s.native h op).isSome := by
        simp only [step]
        cases s.native h op <;> rfl
      simpa [hstep, Label.Fits] using hsome
  | threadEnd t =>
      simp only [Label.Fits, State.stack, step]
      cases (s.threads t).frames with
      | nil => cases hended : (s.threads t).ended <;> simp
      | cons f rest => simp

theorem sound_iff (jvm : Jvm) (hlegal : jvm.Legal) (s : State) (l : Label)
    (hreachable : Reachable (step jvm) initialState s) :
    Sound jvm s l ↔
      (l.Fits s ∧ ∀ method hook, l = .unregister method hook → none ∉ s.registry.slots) ∧
        ∀ t, DispatchUndisturbed jvm t s l := by
  rw [← step_isSome_iff jvm hlegal s l hreachable]
  have hlive : (∀ t, DispatchLive jvm t s l) ↔ ∀ t, DispatchUndisturbed jvm t s l :=
    forall_congr' fun t => dispatchLive_iff hreachable
  exact ⟨fun h => ⟨h.possible, hlive.mp h.dispatch⟩, fun h => ⟨h.1, hlive.mpr h.2⟩⟩

/-- In every state that is reached, the native code gets through a step without a fault
exactly when the label fits the state; where a hook is unregistered, no slot of the registry is
empty; where a hook is called, the loop is below the number of hooks that were collected, and
the hook has not been unregistered since; and where an exit is broadcast, an entry callback
still runs for a method of the same name and descriptor. -/
theorem faultless_iff (jvm : Jvm) (hlegal : jvm.Legal) (s : State) (l : Label)
    (hreachable : Reachable (step jvm) initialState s) :
    Faultless jvm s l ↔
      l.Fits s ∧ (∀ method hook, l = .unregister method hook → none ∉ s.registry.slots) ∧
        (∀ t, DispatchUndisturbed jvm t s l) ∧
        ∀ t popped value a rest hooks, l = .leave t popped value →
          s.stack t = .activation a :: rest → ExitPasses jvm (s.info t) a.method hooks →
            EntryRunsFor jvm t s a.method := by
  have hsound := sound_iff jvm hlegal s l hreachable
  have hstrings : (∀ t, ExitStringsValid jvm t s l) ↔ ∀ t popped value a rest hooks,
      l = .leave t popped value → s.stack t = .activation a :: rest →
        ExitPasses jvm (s.info t) a.method hooks → EntryRunsFor jvm t s a.method :=
    forall_congr' fun t => (stringsOk_of_reachable hreachable t).exitStringsValid_iff
      (guarded_of_reachable hreachable t)
  constructor
  · intro h
    obtain ⟨⟨hfits, hfull⟩, hquiet⟩ := hsound.mp h.toSound
    exact ⟨hfits, hfull, hquiet, hstrings.mp h.strings⟩
  · rintro ⟨hfits, hfull, hquiet, hruns⟩
    exact ⟨hsound.mpr ⟨⟨hfits, hfull⟩, hquiet⟩, hstrings.mpr hruns⟩

theorem Jvm.plain_legal : Jvm.plain.Legal := fun _ => ⟨⟨[], none⟩, rfl⟩

/-- The only hook of a method is called, or removed before. -/
theorem faultless_iff_plain :
    ∃ s, Reachable (step .plain) initialState s ∧ Faultless .plain s (.dispatch 0) ∧
      Faultless .plain s (.unregister ⟨1⟩ none) := by
  let ls : List Label := [.register ⟨1⟩ (some ⟨5⟩), .call 0 ⟨1⟩ fun _ => none, .broadcast 0]
  let s := (run (step .plain) initialState ls).get rfl
  have hreachable : Reachable (step .plain) initialState s := ⟨ls, rfl⟩
  have hfull : none ∉ s.registry.slots := by decide
  have hquiet : ∀ t, DispatchUndisturbed .plain t s (.dispatch 0) := by
    intro t f rest pointer i m hl _ hstack hf hm
    obtain rfl := Label.dispatch.inj hl
    obtain ⟨rfl, _⟩ := List.cons.inj hstack
    obtain ⟨rfl, rfl⟩ := Prod.mk.inj (Option.some.inj hf)
    obtain rfl := Option.some.inj hm
    exact ⟨by decide, fun _ _ _ hop => absurd hop List.not_mem_nil⟩
  refine ⟨s, hreachable, ?_, ?_⟩
  · refine (faultless_iff .plain Jvm.plain_legal s _ hreachable).mpr
      ⟨Or.inl ⟨_, _, 0, rfl, rfl, by decide⟩, nofun, hquiet, nofun⟩
  · refine (faultless_iff .plain Jvm.plain_legal s _ hreachable).mpr
      ⟨trivial, fun _ _ _ => hfull, nofun, nofun⟩

end JvmHookFramework
