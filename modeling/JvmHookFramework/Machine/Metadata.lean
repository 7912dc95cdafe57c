/-
  Machine/Metadata.lean --- what the hooks are told about the method.

  The entry callback asks JVMTI for the metadata of the method; the exit callback takes
  owner from JVMTI and the rest from the record.  Name and descriptor were put there at
  the entry of the same activation, by local references that are dead by the time of its
  exit.  `modifiers` was not: the field is zero in every record, and so is what the exit
  broadcast reports.
-/
import JvmHookFramework.Machine.Owner
import JvmHookFramework.Machine.Strings

set_option autoImplicit false

namespace JvmHookFramework

open Foundation Foundation.GuardStack

/-! ## Reports -/

/-- What a `MethodCall` or a `MethodInfo` says about its method, if the strings in it still
have the characters they were made of. -/
structure Metadata where
  owner : Klass
  name : Option (List Char)
  desc : Option (List Char)
  modifiers : BitVec 32
  deriving DecidableEq, Repr

def MethodCallImpl.metadata (call : MethodCallImpl) : Metadata where
  owner := call.owner
  name := call.metName.map Jstring.chars
  desc := call.metDesc.map Jstring.chars
  modifiers := call.modifiers

def HandleClass.metadata : HandleClass → Option Metadata
  | .methodInfoImpl c n desc modi =>
      some ⟨c, n.map Jstring.chars, desc.map Jstring.chars, modi⟩
  | _ => none

/-- The references to the name and to the descriptor. -/
def MethodCallImpl.strings (call : MethodCallImpl) : List Jstring :=
  call.metName.toList ++ call.metDesc.toList

def HandleClass.strings : HandleClass → List Jstring
  | .methodInfoImpl _ n desc _ => n.toList ++ desc.toList
  | _ => []

/-- What JVMTI says about a method. -/
def Jvm.metadata (jvm : Jvm) (method : JmethodID) : Metadata where
  owner := jvm.GetMethodDeclaringClass method
  name := some (jvm.methodName method)
  desc := some (jvm.methodDesc method)
  modifiers := jvm.GetMethodModifiers method

/-- The class and the fields of an object. -/
def State.cls (s : State) (h : HandleId) : Option HandleClass := (s.handles[h]?).map Handle.cls

/-- What the record says about the target, which has the given owner. -/
def HookInvokingInfo.metadata (info : HookInvokingInfo) (owner : Klass) : Metadata where
  owner := owner
  name := info.methodName.map Jstring.chars
  desc := info.methodDesc.map Jstring.chars
  modifiers := info.modifiers

/-- What the `MethodInfo` with the number `h` says. -/
def State.methodInfo (s : State) (h : HandleId) : Option Metadata :=
  (s.cls h).bind HandleClass.metadata

/-- The static flag that `toMethod` passes to `ToReflectedMethod`, whenever it is called from
the state on, is that of the method. -/
def StaticFlagRight (jvm : Jvm) (s : State) (h : HandleId) (method : JmethodID) : Prop :=
  ∀ ls s₁ klass m flag s₂, run (step jvm) s ls = some s₁ →
    s₁.native h .toMethod = some (.reflected klass m flag, s₂) → flag = jvm.isStatic method

section

variable {jvm : Jvm} {s s' : State} {t : Tid} {l : Label} {h : HandleId}

/-! ## Fields of an object never change -/

theorem State.cls_clearAddress (s : State) (h h' : HandleId) :
    (s.clearAddress h).cls h' = s.cls h' := by
  unfold State.cls State.clearAddress
  rw [List.getElem?_modify]
  cases s.handles[h']? with
  | none => rfl
  | some o =>
      simp only [Option.map_eq_map, Option.map_some]
      split <;> rfl

theorem State.cls_newHandle {cls : HandleClass} (s : State) (c : CallbackId) {k : HandleClass}
    (hk : s.cls h = some k) : (s.newHandle cls c).cls h = some k := by
  obtain ⟨o, ho, rfl⟩ := Option.map_eq_some_iff.mp hk
  have hlt := (List.getElem?_eq_some_iff.mp ho).1
  unfold State.cls State.newHandle
  rw [List.getElem?_append_left hlt, ho, Option.map_some]

/-- A step leaves the class and the fields of an object as they are. -/
theorem Step.cls (hstep : Step jvm s l s') {k : HandleClass} (hk : s.cls h = some k) :
    s'.cls h = some k := by
  cases hstep with
  | @callBroadcast t method frame parameters =>
      exact State.cls_newHandle _ _ (State.cls_newHandle _ _ (State.cls_newHandle _ _ hk))
  | leaveBroadcast =>
      exact State.cls_newHandle _ _ (State.cls_newHandle _ _ (State.cls_newHandle _ _ hk))
  | @finishEntry t threw c cb a rest i =>
      have hcleared : (((s.clearAddress c.forceERN).clearAddress c.inf).clearAddress c.anc).cls h =
          some k := by
        rw [State.cls_clearAddress, State.cls_clearAddress, State.cls_clearAddress, hk]
      exact hcleared
  | @finishExit t threw c cb a rest =>
      have hcleared : ((((s.clearAddress c.retV).clearAddress c.metInfo).clearAddress
          c.retV).clearAddress c.cc).cls h = some k := by
        rw [State.cls_clearAddress, State.cls_clearAddress, State.cls_clearAddress,
          State.cls_clearAddress, hk]
      exact hcleared
  | _ => exact hk

theorem cls_of_run {k : HandleClass} (hk : s.cls h = some k) {ls : List Label}
    (hrun : run (step jvm) s ls = some s') : s'.cls h = some k :=
  run_invariant (fun _ _ _ hinv hstep => (step_cases hstep).cls hinv) hk hrun

/-- An object with its class and its address. -/
theorem State.exists_handle {k : HandleClass} {c : CallbackId} (hk : s.cls h = some k)
    (haddress : s.address h = some c) :
    ∃ o, s.handles[h]? = some o ∧ o.cls = k ∧ o.address = some c := by
  obtain ⟨o, ho, hcls⟩ := Option.map_eq_some_iff.mp hk
  obtain ⟨o', ho', hoaddress⟩ := Option.bind_eq_some_iff.mp haddress
  obtain rfl := Option.some.inj (ho.symm.trans ho')
  exact ⟨o, ho, hcls, hoaddress⟩

theorem Step.methodInfo (hstep : Step jvm s l s') {m : Metadata} (hm : s.methodInfo h = some m) :
    s'.methodInfo h = some m := by
  obtain ⟨k, hk, hm'⟩ := Option.bind_eq_some_iff.mp hm
  unfold State.methodInfo
  rw [hstep.cls hk, Option.bind_some, hm']

/-! ## toMethod -/

theorem HandleOp.call_toMethod {cls : HandleClass} {cb : Option Callback} {refs refs' : JniRefs}
    {klass : Klass} {m : JmethodID} {flag : Bool} {cb' : Option Callback}
    (hcall : HandleOp.toMethod.call cls cb refs = some (.reflected klass m flag, cb', refs')) :
    ∃ data, cls.metadata = some data ∧ flag = (data.modifiers &&& JVM_ACC_STATIC != 0) := by
  cases cls with
  | methodInfoImpl c n desc modi =>
      cases cb with
      | none => cases hcall
      | some cb =>
          simp only [HandleOp.call, Option.some.injEq, Prod.mk.injEq, Result.reflected.injEq]
            at hcall
          exact ⟨_, rfl, hcall.1.2.2.symm⟩
  | _ => cases hcall

/-- `toMethod` takes the flag from the modifiers of its object. -/
theorem native_toMethod {klass : Klass} {m : JmethodID} {flag : Bool}
    (hnative : s.native h .toMethod = some (.reflected klass m flag, s')) :
    ∃ data, s.methodInfo h = some data ∧ flag = (data.modifiers &&& JVM_ACC_STATIC != 0) := by
  have hfields : ∀ {o : Handle} {cb : Option Callback} {outcome : CallOutcome},
      s.handles[h]? = some o → HandleOp.toMethod.call o.cls cb s.refs = some outcome →
      outcome.1 = .reflected klass m flag →
      ∃ data, s.methodInfo h = some data ∧
        flag = (data.modifiers &&& JVM_ACC_STATIC != 0) := by
    rintro o cb ⟨result, cb', refs'⟩ ho hcall hresult
    have hreflected : result = .reflected klass m flag := hresult
    subst hreflected
    obtain ⟨data, hdata, hflag⟩ := HandleOp.call_toMethod hcall
    refine ⟨data, ?_, hflag⟩
    unfold State.methodInfo State.cls
    rw [ho, Option.map_some, Option.bind_some, hdata]
  generalize hresult : Result.reflected klass m flag = result at hnative
  cases nativeCall_of_eq hnative with
  | inert ho haddress hcall => exact hfields ho hcall hresult.symm
  | live ho haddress hcb hrunning hcall => exact hfields ho hcall hresult.symm

/-- The flag is right when the object has the modifiers of the method, or other ones that
agree on it. -/
theorem staticFlagRight_of_methodInfo {data : Metadata} {method : JmethodID}
    (hdata : s.methodInfo h = some data)
    (hstatic : (data.modifiers &&& JVM_ACC_STATIC != 0) = jvm.isStatic method) :
    StaticFlagRight jvm s h method := by
  intro ls s₁ klass m flag s₂ hrun hnative
  obtain ⟨data', hdata', hflag⟩ := native_toMethod hnative
  have hkept : s₁.methodInfo h = some data :=
    run_invariant (fun _ _ _ hinv hstep => (step_cases hstep).methodInfo hinv) hdata hrun
  obtain rfl := Option.some.inj (hkept.symm.trans hdata')
  exact hflag.trans hstatic

/-! ## What the two callbacks report -/

theorem State.cls_newHandle_self (s : State) (cls : HandleClass) (c : CallbackId) :
    (s.newHandle cls c).cls s.handles.length = some cls := by
  unfold State.cls State.newHandle
  rw [List.getElem?_concat_length]
  rfl

/-- The third of the objects that a callback creates. -/
theorem State.cls_newHandles (s : State) (cls₁ cls₂ cls₃ : HandleClass) (c : CallbackId) :
    (((s.newHandle cls₁ c).newHandle cls₂ c).newHandle cls₃ c).cls (s.handles.length + 2) =
      some cls₃ := by
  have hlength : ((s.newHandle cls₁ c).newHandle cls₂ c).handles.length = s.handles.length + 2 := by
    rw [State.length_newHandle, State.length_newHandle]
  rw [← hlength, State.cls_newHandle_self]

/-- The call that an entry callback makes reports what JVMTI says. -/
theorem onMethodEntry.reports_begin (jvm : Jvm) (s : State) (t : Tid) (th : Thread)
    (method : JmethodID) (frame : Locals) (hookCount : Nat) (array : ArrayId)
    (parameters : List CallParameter) :
    ∃ c, (onMethodEntry.begin jvm s t th method frame hookCount array parameters).stack t =
        .methodEntry c :: th.frames ∧ c.hookInstances = array ∧
      c.call.metadata = jvm.metadata method ∧
      (onMethodEntry.begin jvm s t th method frame hookCount array parameters).methodInfo
        c.call.mi = some (jvm.metadata method) := by
  unfold onMethodEntry.begin
  rw [State.stack_setThread_self]
  refine ⟨_, rfl, rfl, rfl, ?_⟩
  exact congrArg (Option.bind · HandleClass.metadata) (State.cls_newHandles _ _ _ _ _)

/-- The call that an exit callback makes reports what the record says, of the owner apart,
and has its two strings. -/
theorem onMethodExit.reports_begin (jvm : Jvm) (s : State) (t : Tid) (a : Activation)
    (rest : List Frame) (hooks : ArrayId) (popped : Bool) (value : Option Jvalue) :
    ∃ c, (onMethodExit.begin jvm s t a rest hooks popped value).stack t =
        .methodExit c :: .activation a :: rest ∧
      c.callback = s.callbacks.length ∧
      (c.call.metName = (s.info t).methodName ∧ c.call.metDesc = (s.info t).methodDesc) ∧
      c.call.metadata = (s.info t).metadata (jvm.GetMethodDeclaringClass a.method) ∧
      (onMethodExit.begin jvm s t a rest hooks popped value).methodInfo c.call.mi =
        some ((s.info t).metadata (jvm.GetMethodDeclaringClass a.method)) := by
  unfold onMethodExit.begin
  rw [State.stack_setThread_self]
  refine ⟨_, rfl, rfl, ⟨rfl, rfl⟩, rfl, ?_⟩
  exact congrArg (Option.bind · HandleClass.metadata) (State.cls_newHandles _ _ _ _ _)

/-! ## The invariant -/

/-- The entry callback has told its hooks about the method that its array is for. -/
def EntryReports (jvm : Jvm) (s : State) (c : EntryCall) : Prop :=
  ∃ m, s.snapshot c.hookInstances = some m ∧ c.call.metadata = jvm.metadata m.metid ∧
    s.methodInfo c.call.mi = some (jvm.metadata m.metid)

theorem EntryReports.step {c : EntryCall} {loop : Option Nat} (hc : EntryReports jvm s c)
    (hstep : Step jvm s l s') : EntryReports jvm s' { c with loop := loop } := by
  obtain ⟨m, hm, hcall, hinfo⟩ := hc
  exact ⟨m, hstep.snapshot hm, hcall, hstep.methodInfo hinfo⟩

/-- An entry callback on a stack was there before the step, its loop apart, or the step
has begun it. -/
theorem ThreadStep.mem_methodEntry {info : HookInvokingInfo} {stack : List Frame} {c : EntryCall}
    (hthread : ThreadStep jvm s t l info stack) (hc : .methodEntry c ∈ stack) :
    (∃ c', .methodEntry c' ∈ s.stack t ∧ c = { c' with loop := c.loop }) ∨
    ∃ method frame, l = .call t method frame ∧ EntryPasses jvm s t method ∧
      stack = .methodEntry c :: .activation (entered method frame) :: s.stack t := by
  have hkept : .methodEntry c ∈ s.stack t →
      ∃ c', .methodEntry c' ∈ s.stack t ∧ c = { c' with loop := c.loop } :=
    fun hmem => ⟨c, hmem, rfl⟩
  cases hthread with
  | idle => exact Or.inl (hkept hc)
  | ended => cases hc
  | called => exact Or.inl (hkept (by simpa using hc))
  | entryBegins hpasses =>
      rcases List.mem_cons.mp hc with heq | hold
      · obtain rfl := Frame.methodEntry.inj heq
        exact Or.inr ⟨_, _, rfl, hpasses, rfl⟩
      · exact Or.inl (hkept (by simpa using hold))
  | left hstack =>
      refine Or.inl (hkept ?_)
      rw [hstack]
      exact List.mem_cons_of_mem _ hc
  | exitBegins hstack =>
      refine Or.inl (hkept ?_)
      rw [hstack]
      simpa using hc
  | prepareBegins => exact Or.inl (hkept (by simpa using hc))
  | @entryLoops l d rest i hstack =>
      rcases List.mem_cons.mp hc with heq | hold
      · obtain rfl := Frame.methodEntry.inj heq
        exact Or.inl ⟨d, hstack ▸ List.mem_cons_self, rfl⟩
      · exact Or.inl (hkept (hstack ▸ List.mem_cons_of_mem _ hold))
  | exitLoops hstack =>
      refine Or.inl (hkept ?_)
      rw [hstack]
      simpa using hc
  | entryEnds hstack =>
      refine Or.inl (hkept ?_)
      rw [hstack]
      exact List.mem_cons_of_mem _ (by simpa using hc)
  | exitEnds hstack =>
      refine Or.inl (hkept ?_)
      rw [hstack]
      exact List.mem_cons_of_mem _ (List.mem_cons_of_mem _ hc)
  | prepareEnds hstack =>
      refine Or.inl (hkept ?_)
      rw [hstack]
      exact List.mem_cons_of_mem _ hc

/-- What holds of an entry callback when it begins, and is kept by every step whatever the
loop of the callback, holds of the entry callbacks of every stack. -/
theorem methodEntry_invariant {p : State → EntryCall → Prop}
    (hkeeps : ∀ {s s' : State} {l : Label} {c : EntryCall} (loop : Option Nat),
      Step jvm s l s' → p s c → p s' { c with loop := loop })
    (hbegins : ∀ {s s' : State} {t : Tid} {method : JmethodID} {frame : Locals} {c : EntryCall}
      {rest : List Frame}, Step jvm s (.call t method frame) s' → EntryPasses jvm s t method →
      s'.stack t = .methodEntry c :: rest → p s' c)
    (hreachable : Reachable (step jvm) initialState s) (t : Tid) :
    ∀ c, .methodEntry c ∈ s.stack t → p s c := by
  let inv : State → Prop := fun s => ∀ c, .methodEntry c ∈ s.stack t → p s c
  have hinit : inv initialState := fun c hc => absurd hc List.not_mem_nil
  refine @reachable_invariant _ _ _ inv _ _ hinit ?_ hreachable
  intro s l s' hinv hstep c hc
  have hcases := step_cases hstep
  rcases (hcases.thread t).mem_methodEntry hc with ⟨c', hc', hsame⟩ |
    ⟨method, frame, rfl, hpasses, hstack⟩
  · rw [hsame]
    exact hkeeps c.loop hcases (hinv c' hc')
  · exact hbegins hcases hpasses hstack

theorem Step.entryReports {method : JmethodID} {frame : Locals} {c : EntryCall} {rest : List Frame}
    (hstep : Step jvm s (.call t method frame) s') (hpasses : EntryPasses jvm s t method)
    (hstack : s'.stack t = .methodEntry c :: rest) : EntryReports jvm s' c := by
  have hsnapshot := hstep.snapshot_call hpasses.1
  cases hstep with
  | callUnhooked halive hnone => exact absurd hnone hpasses.1
  | callSuppressed halive hsome hguard => exact absurd hguard hpasses.2
  | @callBroadcast _ _ _ parameters =>
      obtain ⟨c', hc', harray, hcall, hinfo⟩ := onMethodEntry.reports_begin jvm
        (s.malloc (s.collected jvm method) method) t
        ((s.threads t).push (.activation (entered method frame))) method frame
        (s.registry.hooksOf jvm method).length s.arrays.length parameters
      obtain rfl := Frame.methodEntry.inj (List.cons.inj (hc'.symm.trans hstack)).1
      refine ⟨⟨method, s.collected jvm method, s.unregistered.length⟩, ?_, hcall, hinfo⟩
      rw [harray]
      exact hsnapshot

theorem entryReports_of_reachable (hreachable : Reachable (step jvm) initialState s) (t : Tid) :
    ∀ c, .methodEntry c ∈ s.stack t → EntryReports jvm s c :=
  methodEntry_invariant (fun _ hstep hc => hc.step hstep)
    (fun hstep hpasses hstack => hstep.entryReports hpasses hstack) hreachable t

/-- `onMethodEntry` never stores the modifiers. -/
theorem ThreadStep.modifiers {info : HookInvokingInfo} {stack : List Frame}
    (hthread : ThreadStep jvm s t l info stack) (hzero : (s.info t).modifiers = 0) :
    info.modifiers = 0 := by
  cases hthread with
  | ended => rfl
  | _ => exact hzero

theorem modifiers_of_reachable (hreachable : Reachable (step jvm) initialState s) (t : Tid) :
    (s.info t).modifiers = 0 := by
  let inv : State → Prop := fun s => (s.info t).modifiers = 0
  have hinit : inv initialState := Eq.refl (0 : BitVec 32)
  refine @reachable_invariant _ _ _ inv _ _ hinit ?_ hreachable
  intro s l s' hinv hstep
  exact ((step_cases hstep).thread t).modifiers hinv

/-- An activation that was broadcast is the target when it exits, and no entry callback runs. -/
theorem target_of_exit {a : Activation} {rest : List Frame} {array : ArrayId}
    (hreachable : Reachable (step jvm) initialState s)
    (hstack : s.stack t = .activation a :: rest) (hbroadcast : a.broadcast = some array)
    (hhooks : (s.info t).hooks ≠ none) :
    (s.info t).targetMethod = some a.method ∧ (s.info t).runningHook = false ∧
      (s.info t).hooks = some array := by
  have howned := owned_of_reachable hreachable t
  have hexact := guarded_of_reachable hreachable t
  unfold State.running at hexact
  rw [hstack] at howned hexact
  have hne : a.broadcast ≠ none := hbroadcast ▸ Option.some_ne_none array
  obtain ⟨hooks, hhooks⟩ := Option.ne_none_iff_exists'.mp hhooks
  obtain ⟨harray, htarget⟩ := howned.of_hooks hexact hne hhooks
  refine ⟨htarget, (howned.flags_of_broadcast hexact hne).1, hhooks.trans ?_⟩
  exact harray.symm.trans hbroadcast

/-- What the exit broadcast of an activation reports: everything but the modifiers. -/
theorem reports_of_exit {a : Activation} {rest : List Frame} {array : ArrayId}
    (hreachable : Reachable (step jvm) initialState s)
    (hstack : s.stack t = .activation a :: rest) (hbroadcast : a.broadcast = some array)
    (hhooks : (s.info t).hooks ≠ none) :
    (s.info t).metadata (jvm.GetMethodDeclaringClass a.method) =
        { jvm.metadata a.method with modifiers := 0 } ∧
      ∃ m, s.snapshot array = some m ∧ m.metid = a.method := by
  obtain ⟨htarget, hrunning, harray⟩ := target_of_exit hreachable hstack hbroadcast hhooks
  obtain ⟨_, m, hm, hmetid, _⟩ :=
    (recordOk_of_reachable hreachable t).outside hrunning array harray
  obtain ⟨c, _, ⟨hname, hdesc⟩, _⟩ := (stringsOk_of_reachable hreachable t).target _ htarget
  refine ⟨?_, m, hm, Option.some.inj (hmetid.symm.trans htarget)⟩
  unfold HookInvokingInfo.metadata Jvm.metadata
  rw [hname, hdesc, modifiers_of_reachable hreachable t]
  rfl

end

/-! ## The two broadcasts of one activation -/

/-- An activation of `t` is broadcast twice: its entry callback `c₀` is on the stack in
`s₀`, and after the steps `ls` its exit event starts the exit callback `c`. -/
structure BroadcastTwice (jvm : Jvm) (t : Tid) (s₀ : State) (c₀ : EntryCall) (ls : List Label)
    (a : Activation) (s' : State) (c : ExitCall) : Prop where
  reachable : Reachable (step jvm) initialState s₀
  entry : .methodEntry c₀ ∈ s₀.stack t
  exit : ∃ s rest popped value, run (step jvm) s₀ ls = some s ∧
    s.stack t = .activation a :: rest ∧ step jvm s (.leave t popped value) = some s' ∧
    s'.stack t = .methodExit c :: s.stack t
  same : a.broadcast = some c₀.hookInstances

/-- `preInvoke` and `postInvoke` are told the same about the method, by the `MethodCall` and
by its `MethodInfo`, if dead strings have their characters still; and both `MethodInfo`s ask
for the method with the right static flag. -/
structure DescribedAlike (jvm : Jvm) (s₀ : State) (c₀ : EntryCall) (method : JmethodID)
    (s' : State) (c : ExitCall) : Prop where
  call : c.call.metadata = c₀.call.metadata
  info : s'.methodInfo c.call.mi = s₀.methodInfo c₀.call.mi
  info_some : (s₀.methodInfo c₀.call.mi).isSome = true
  entryFlag : StaticFlagRight jvm s₀ c₀.call.mi method
  exitFlag : StaticFlagRight jvm s' c.call.mi method

/-- The strings that a call and its `MethodInfo` are made with can be read on `t`. -/
def StringsReadable (s : State) (t : Tid) (call : MethodCallImpl) : Prop :=
  (∀ j ∈ call.strings, j.Valid s t) ∧
    ∀ cls, s.cls call.mi = some cls → ∀ j ∈ cls.strings, j.Valid s t

/-- `preInvoke` and `postInvoke` are told the same about the method. -/
structure DescribedSame (jvm : Jvm) (t : Tid) (s₀ : State) (c₀ : EntryCall)
    (method : JmethodID) (s' : State) (c : ExitCall) : Prop
    extends DescribedAlike jvm s₀ c₀ method s' c where
  entryStrings : StringsReadable s₀ t c₀.call
  exitStrings : StringsReadable s' t c.call

section

variable {jvm : Jvm} {t : Tid} {s₀ s' : State} {c₀ : EntryCall} {ls : List Label}
  {a : Activation} {c : ExitCall}

/-- The callback of the exit finds the record as the entry of the activation has left it: with
two strings that are dead, and without the modifiers. -/
theorem BroadcastTwice.reports (htwice : BroadcastTwice jvm t s₀ c₀ ls a s' c) :
    (∃ d, c.call.metName = some ⟨d, jvm.methodName a.method⟩ ∧
        c.call.metDesc = some ⟨d, jvm.methodDesc a.method⟩ ∧ d ∉ s'.runningCallbacks t) ∧
      (c₀.call.metadata = jvm.metadata a.method ∧
        s₀.methodInfo c₀.call.mi = some (jvm.metadata a.method)) ∧
      c.call.metadata = { jvm.metadata a.method with modifiers := 0 } ∧
      s'.methodInfo c.call.mi = some { jvm.metadata a.method with modifiers := 0 } := by
  obtain ⟨hreachable, hentry, ⟨s, rest, popped, value, hrun, hstack, hstep, hstack'⟩, hsame⟩ :=
    htwice
  obtain ⟨m, hm, hcall₀, hinfo₀⟩ := entryReports_of_reachable hreachable t c₀ hentry
  have hm' : s.snapshot c₀.hookInstances = some m :=
    run_invariant (fun _ _ _ hinv hstep => (step_cases hstep).snapshot hinv) hm hrun
  obtain ⟨lsBefore, hbefore⟩ := hreachable
  have hreachable' : Reachable (step jvm) initialState s :=
    ⟨lsBefore ++ ls, run_append.mpr ⟨s₀, hbefore, hrun⟩⟩
  obtain ⟨_, _, a', rest', hl, hstack₂, hpasses, _⟩ :=
    ((step_cases hstep).thread t).exit_begins hstack'
  obtain rfl := Frame.activation.inj (List.cons.inj (hstack₂.symm.trans hstack)).1
  have hhooks : (s.info t).hooks ≠ none := hpasses.1 ▸ Option.some_ne_none _
  obtain ⟨hrecord, m', hm₂, hmetid⟩ := reports_of_exit hreachable' hstack hsame hhooks
  obtain rfl := Option.some.inj (hm'.symm.trans hm₂)
  rw [hmetid] at hcall₀ hinfo₀
  have hbegin := (hpasses.step_leave hstack popped value).symm.trans hstep
  obtain ⟨d, hd, hcallback, ⟨hname, hdesc⟩, hcall, hinfo⟩ :=
    onMethodExit.reports_begin jvm s t a' rest c.pointer popped value
  rw [Option.some.inj hbegin] at hd hinfo
  obtain rfl := Frame.methodExit.inj (List.cons.inj (hd.symm.trans hstack')).1
  rw [hrecord] at hcall hinfo
  obtain ⟨htarget, hquiet, _⟩ := target_of_exit hreachable' hstack hsame hhooks
  obtain ⟨d, ⟨hname', hdesc'⟩, hdead⟩ :=
    (stringsOk_of_reachable hreachable' t).dead hquiet htarget hcallback hstack'
  exact ⟨⟨d, hname.trans hname', hdesc.trans hdesc', hdead⟩, ⟨hcall₀, hinfo₀⟩, hcall, hinfo⟩

/-- Dead strings apart, the descriptions agree exactly for a method without modifiers. -/
theorem BroadcastTwice.describedAlike_iff (htwice : BroadcastTwice jvm t s₀ c₀ ls a s' c) :
    DescribedAlike jvm s₀ c₀ a.method s' c ↔ jvm.GetMethodModifiers a.method = 0 := by
  obtain ⟨_, ⟨hcall₀, hinfo₀⟩, hcall, hinfo⟩ := htwice.reports
  constructor
  · intro hdescribed
    have hmodifiers := congrArg Metadata.modifiers (hcall₀.symm.trans
      (hdescribed.call.symm.trans hcall))
    exact hmodifiers
  · intro hzero
    have hmetadata : { jvm.metadata a.method with modifiers := 0 } = jvm.metadata a.method := by
      unfold Jvm.metadata
      rw [hzero]
    rw [hmetadata] at hcall hinfo
    refine ⟨hcall.trans hcall₀.symm, hinfo.trans hinfo₀.symm, ?_, ?_, ?_⟩
    · rw [hinfo₀]
      rfl
    · exact staticFlagRight_of_methodInfo hinfo₀ rfl
    · exact staticFlagRight_of_methodInfo hinfo rfl

end

/-- `preInvoke` and `postInvoke` never describe the same method: the name and the descriptor
that `postInvoke` is given cannot be read any more.  Even if they could, the method would have
to have no modifiers. -/
theorem never_described_same (jvm : Jvm) (t : Tid) (s₀ : State) (c₀ : EntryCall)
    (ls : List Label) (a : Activation) (s' : State) (c : ExitCall)
    (htwice : BroadcastTwice jvm t s₀ c₀ ls a s' c) :
    ¬ DescribedSame jvm t s₀ c₀ a.method s' c ∧
      (∃ name desc, c.call.metName = some name ∧ c.call.metDesc = some desc ∧
        ¬ name.Valid s' t ∧ ¬ desc.Valid s' t) ∧
      (DescribedAlike jvm s₀ c₀ a.method s' c ↔ jvm.GetMethodModifiers a.method = 0) := by
  obtain ⟨⟨d, hname, hdesc, hdead⟩, _⟩ := htwice.reports
  refine ⟨fun hdescribed => ?_, ⟨_, _, hname, hdesc, hdead, hdead⟩, htwice.describedAlike_iff⟩
  have hmem : Jstring.mk d (jvm.methodName a.method) ∈ c.call.strings := by
    unfold MethodCallImpl.strings
    rw [hname]
    exact List.mem_cons_self
  exact hdead (hdescribed.exitStrings.1 _ hmem)

/-- A machine whose methods are all `void m()`, with no modifier. -/
def Jvm.plainInstance : Jvm := { Jvm.plain with GetMethodModifiers := fun _ => 0 }

/-- A hooked call, from its entry callback to its exit. -/
theorem never_described_same_plainInstance :
    ∃ s₀ c₀ s' c, BroadcastTwice .plainInstance 0 s₀ c₀ [.broadcast 0, .finish 0 true]
        { entered ⟨1⟩ (fun _ => none) with broadcast := some 0 } s' c ∧
      ¬ DescribedSame .plainInstance 0 s₀ c₀ ⟨1⟩ s' c ∧
      DescribedAlike .plainInstance s₀ c₀ ⟨1⟩ s' c := by
  have hreachable : Reachable (step .plainInstance) initialState _ :=
    ⟨[.register ⟨1⟩ (some ⟨5⟩), .call 0 ⟨1⟩ fun _ => none], rfl⟩
  have htwice : BroadcastTwice .plainInstance 0 _ _ [.broadcast 0, .finish 0 true] _ _ _ :=
    ⟨hreachable, List.mem_cons_self, ⟨_, _, false, none, rfl, rfl, rfl, rfl⟩, rfl⟩
  obtain ⟨hnever, _, halike⟩ := never_described_same .plainInstance 0 _ _ _ _ _ _ htwice
  exact ⟨_, _, _, _, htwice, hnever, halike.mpr rfl⟩

/-- The exit broadcast of a static method reports no modifiers, and a name that is dead. -/
theorem described_otherwise_static :
    ¬ ∀ jvm t s₀ c₀ ls a s' c, BroadcastTwice jvm t s₀ c₀ ls a s' c →
      DescribedSame jvm t s₀ c₀ a.method s' c := by
  intro hsame
  have hreachable : Reachable (step .plain) initialState _ :=
    ⟨[.register ⟨1⟩ (some ⟨5⟩), .call 0 ⟨1⟩ fun _ => none], rfl⟩
  have htwice : BroadcastTwice .plain 0 _ _ [.broadcast 0, .finish 0 true] _ _ _ :=
    ⟨hreachable, List.mem_cons_self, ⟨_, _, false, none, rfl, rfl, rfl, rfl⟩, rfl⟩
  have hcall := (hsame _ _ _ _ _ _ _ _ htwice).call
  exact absurd (congrArg Metadata.modifiers hcall) (by decide)

end JvmHookFramework
