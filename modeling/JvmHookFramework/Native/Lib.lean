/-
  Native/Lib.lean --- the agent of lib.cpp: the per-thread record, the callbacks
  `onMethodEntry`, `onMethodExit`, `onClassPrepare` and `onThreadDeath`, and the
  machine they make together with the Java code of the threads.

  A callback is cut at the calls that run Java code: it is entered by the event that
  raises it, and what follows `CallStaticVoidMethod` runs when the broadcast returns.
  Between the two the thread may do whatever Java code can do, so further callbacks
  nest on it; the frames of a thread are its stack, the top first.  Every choice of the
  environment is in the label of a step, and a step is `none` when the label does not
  fit the state or when the code would crash or never return.
-/
import JvmHookFramework.Native.ClassHooks
import JvmHookFramework.Native.Handles

set_option autoImplicit false

namespace JvmHookFramework

open Foundation

abbrev Tid := Nat

/-- The number of a successful call of `shouldRunHook`, and of the array it allocated. -/
abbrev ArrayId := Nat

/-! ## The state -/

/-- The record in the thread-local storage. -/
structure HookInvokingInfo where
  runningHook : Bool := false
  exitingMethod : Bool := false
  broadcastingMethodPrepareLoad : Bool := false
  hookCounts : Nat := 0
  hooks : Option ArrayId := none
  targetMethod : Option JmethodID := none
  modifiers : BitVec 32 := 0
  methodName : Option Jstring := none
  methodDesc : Option Jstring := none
  /-- Where `hookCounts` comes from: the call of `shouldRunHook` that set it.  No code
  reads this. -/
  countsFrom : Option ArrayId := none
  deriving DecidableEq, Repr

/-- One activation of a Java method. -/
structure Activation where
  method : JmethodID
  frame : Locals
  /-- The array that the entry broadcast of this activation was given, once it has
  returned.  No code reads this. -/
  broadcast : Option ArrayId := none

/-- `onMethodEntry` past its guards, as far as its thread needs it. -/
structure EntryCall where
  callback : CallbackId
  hookInstances : ArrayId
  hookCount : Nat
  anc : HandleId
  forceERN : HandleId
  inf : HandleId
  call : MethodCallImpl
  /-- `none` while the objects are constructed, then the `i` of the loop of
  `broadcastMethodEnter`. -/
  loop : Option Nat
  deriving DecidableEq, Repr

/-- `onMethodExit` past its guards; `pointer` and `size` are the last two arguments of
`broadcastMethodExit`, `i` is its loop. -/
structure ExitCall where
  callback : CallbackId
  pointer : ArrayId
  size : Nat
  cc : HandleId
  retV : HandleId
  metInfo : HandleId
  call : MethodCallImpl
  i : Nat
  deriving DecidableEq, Repr

inductive Frame where
  | activation (a : Activation)
  | methodEntry (c : EntryCall)
  | methodExit (c : ExitCall)
  | classPrepare

structure Thread where
  /-- `none` is a null in the thread-local storage. -/
  info : Option HookInvokingInfo := none
  frames : List Frame := []
  /-- The JVMTI `ForceEarlyReturn*` calls that callbacks of the thread made. -/
  forced : List ForceCall := []
  ended : Bool := false

/-- An allocated hook array. -/
structure MallocedArray where
  array : HookArray
  /-- How often it was freed. -/
  frees : Nat := 0
  /-- The method it was collected for. -/
  metid : JmethodID
  /-- How many `unregisterHook` calls had completed when it was collected. -/
  stamp : Nat
  deriving DecidableEq, Repr

structure State where
  registry : Registry := initialRegistry
  refs : JniRefs := {}
  arrays : List MallocedArray := []
  callbacks : List Callback := []
  handles : List Handle := []
  threads : Tid → Thread := fun _ => {}
  /-- The `unregisterHook` calls that completed, in order. -/
  unregistered : List (JmethodID × Option Obj) := []

def initialState : State := {}

/-! ## Small accessors -/

namespace Thread

/-- `getHookInvokingInfo`: a null in the thread-local storage is replaced by a zeroed
record, so every thread has one. -/
def getHookInvokingInfo (th : Thread) : HookInvokingInfo := th.info.getD {}

/-- Store the record back. -/
def setInfo (th : Thread) (info : HookInvokingInfo) : Thread := { th with info := some info }

def push (th : Thread) (f : Frame) : Thread := { th with frames := f :: th.frames }

end Thread

namespace State

def setThread (s : State) (t : Tid) (th : Thread) : State :=
  { s with threads := Function.update s.threads t th }

/-- The array a call of `shouldRunHook` allocated, under its number. -/
def malloc (s : State) (array : HookArray) (metid : JmethodID) : State :=
  { s with arrays :=
      s.arrays ++ [{ array := array, metid := metid, stamp := s.unregistered.length }] }

/-- `free`, which ignores null. -/
def free (s : State) (p : Option ArrayId) : State :=
  { s with arrays :=
      match p with
      | none => s.arrays
      | some a => s.arrays.modify a fun m => { m with frees := m.frees + 1 } }

/-- A new object whose address leads to the callback that creates it. -/
def newHandle (s : State) (cls : HandleClass) (creator : CallbackId) : State :=
  { s with handles := s.handles ++ [⟨cls, some creator, creator⟩] }

/-- `SetLongField(o, address, 0)` -/
def clearAddress (s : State) (h : HandleId) : State :=
  { s with handles := s.handles.modify h fun o => { o with address := none } }

end State

/-! ## onMethodEntry -/

/-- The class-loader checks of `onMethodEntry`. -/
def Jvm.skipsEntry (jvm : Jvm) (method : JmethodID) : Bool :=
  let classLoaderZ := jvm.GetClassLoader (jvm.GetMethodDeclaringClass method)
  classLoaderZ = jvm.classLoaderX ||
    (jvm.extClassLoader != none && decide (classLoaderZ = jvm.extClassLoader))

def Jvm.isStatic (jvm : Jvm) (method : JmethodID) : Bool :=
  jvm.GetMethodModifiers method &&& JVM_ACC_STATIC != 0

/-- The block of `onMethodEntry` behind its guards, up to its first call into Java:
the record is set, the parameter table and the objects for the hooks are made.  The
thread `th` has the activation of `method` on top; `array` is the number of
`hookInstances`. -/
def onMethodEntry.begin (jvm : Jvm) (s : State) (t : Tid) (th : Thread) (method : JmethodID)
    (frame : Locals) (hookCount : Nat) (array : ArrayId) (parameters : List CallParameter) :
    State :=
  let callback : CallbackId := s.callbacks.length
  let methodOwner := jvm.GetMethodDeclaringClass method
  let modifiers := jvm.GetMethodModifiers method
  let metName0 : Jstring := ⟨callback, jvm.methodName method⟩
  let metDesc0 : Jstring := ⟨callback, jvm.methodDesc method⟩
  let info :=
    { th.getHookInvokingInfo with
      runningHook := true
      targetMethod := some method
      hookCounts := hookCount
      countsFrom := some array
      methodName := some metName0
      methodDesc := some metDesc0 }
  let thisObj := if jvm.isStatic method then some .null else frame.GetLocalObject 0
  let locals : Callback := { method := method, parameters := parameters }
  let anc : HandleId := s.handles.length
  let s := { s with callbacks := s.callbacks ++ [locals] }
  let s := s.newHandle (.argumentsNative parameters.length thisObj) callback
  let s := s.newHandle .forceEarlyReturnNative callback
  let s := s.newHandle
    (.methodInfoImpl methodOwner (some metName0) (some metDesc0) modifiers) callback
  let call : MethodCallImpl :=
    { owner := methodOwner, metName := some metName0, metDesc := some metDesc0,
      modifiers := modifiers, args := some anc, fer := anc + 1, mi := anc + 2 }
  s.setThread t ((th.setInfo info).push (.methodEntry
    { callback := callback, hookInstances := array, hookCount := hookCount, anc := anc,
      forceERN := anc + 1, inf := anc + 2, call := call, loop := none }))

/-- `onMethodEntry` up to its first call into Java, raised by the entry of `method`
with the given locals; the activation is pushed first.  An early return behind
`shouldRunHook` leaves the array it allocated behind. -/
def onMethodEntry (jvm : Jvm) (s : State) (t : Tid) (method : JmethodID) (frame : Locals) :
    Option State :=
  let th := (s.threads t).push (.activation { method := method, frame := frame })
  match shouldRunHook jvm s.registry method with
  | (true, hookCount, some hookInstances) =>
      let array : ArrayId := s.arrays.length
      let s := s.malloc hookInstances method
      let invokingInfo := th.getHookInvokingInfo
      if invokingInfo.runningHook || invokingInfo.exitingMethod then
        some (s.setThread t (th.setInfo invokingInfo))
      else if jvm.skipsEntry method then some (s.setThread t (th.setInfo invokingInfo))
      else
        match readParameters frame (jvm.methodDesc method) (jvm.isStatic method) with
        | none => none
        | some parameters =>
            some (onMethodEntry.begin jvm s t th method frame hookCount array parameters)
  | _ => some (s.setThread t th)

/-- `onMethodEntry` after `CallStaticVoidMethod(broadcastMethodEnter)` has returned,
with an exception pending or not; `cb` are its variables, `a` the activation below. -/
def onMethodEntry.finish (jvm : Jvm) (s : State) (t : Tid) (c : EntryCall) (cb : Callback)
    (a : Activation) (rest : List Frame) : State :=
  let th := s.threads t
  let s := ((s.clearAddress c.forceERN).clearAddress c.inf).clearAddress c.anc
  let invokingInfo := { th.getHookInvokingInfo with hooks := some c.hookInstances }
  let (frame, refs) := writeParameters cb.parameters a.frame s.refs
  let desc := jvm.methodDesc a.method
  let (calls, refs) :=
    forceReturn (charAt desc (pastEnd (indexOf desc ')' 1))) cb.returnForce refs
  let s := { s with
    refs := refs
    callbacks := s.callbacks.modify c.callback fun cb => { cb with returned := true } }
  s.setThread t
    { th with
      info := some { invokingInfo with runningHook := false }
      frames := .activation { a with frame := frame, broadcast := some c.hookInstances } :: rest
      forced := th.forced ++ calls }

/-! ## onMethodExit -/

/-- The block of `onMethodExit` behind its guards, up to its call of
`broadcastMethodExit` with the array `hooks`. -/
def onMethodExit.begin (jvm : Jvm) (s : State) (t : Tid) (a : Activation) (rest : List Frame)
    (hooks : ArrayId) (was_popped_by_exception : Bool) (return_value : Option Jvalue) :
    State :=
  let th := s.threads t
  let invokingInfo := { th.getHookInvokingInfo with exitingMethod := true }
  let callback : CallbackId := s.callbacks.length
  let methodDeclaredClass := jvm.GetMethodDeclaringClass a.method
  let methodNameJ := invokingInfo.methodName
  let methodDescJ := invokingInfo.methodDesc
  let modifiers := invokingInfo.modifiers
  let locals : Callback := { method := a.method, return_value := return_value }
  let cc : HandleId := s.handles.length
  let s := { s with callbacks := s.callbacks ++ [locals] }
  let s := s.newHandle .forceEarlyReturnNative callback
  let s := s.newHandle (.jvmReturnValueImpl none was_popped_by_exception) callback
  let s := s.newHandle
    (.methodInfoImpl methodDeclaredClass methodNameJ methodDescJ modifiers) callback
  let call : MethodCallImpl :=
    { owner := methodDeclaredClass, metName := methodNameJ, metDesc := methodDescJ,
      modifiers := modifiers, args := none, fer := cc, mi := cc + 2 }
  s.setThread t
    { th with
      info := some invokingInfo
      frames := .methodExit
        { callback := callback, pointer := hooks, size := invokingInfo.hookCounts, cc := cc,
          retV := cc + 1, metInfo := cc + 2, call := call, i := 0 } ::
        .activation a :: rest }

/-- `onMethodExit` up to its call of `broadcastMethodExit`, raised by the exit of the
top activation `a`.  An early return lets the activation go. -/
def onMethodExit (jvm : Jvm) (s : State) (t : Tid) (a : Activation) (rest : List Frame)
    (was_popped_by_exception : Bool) (return_value : Option Jvalue) : Option State :=
  let th := s.threads t
  let invokingInfo := th.getHookInvokingInfo
  let skipped := s.setThread t { th with info := some invokingInfo, frames := rest }
  match invokingInfo.hooks with
  | none => some skipped
  | some hooks =>
      match invokingInfo.targetMethod with
      | none => none
      | some targetMethod =>
          if jvm.deref targetMethod ≠ jvm.deref a.method then some skipped
          else if invokingInfo.exitingMethod then some skipped
          else some
            (onMethodExit.begin jvm s t a rest hooks was_popped_by_exception return_value)

/-- `onMethodExit` after `CallStaticVoidMethod(broadcastMethodExit)` has returned. -/
def onMethodExit.finish (jvm : Jvm) (s : State) (t : Tid) (c : ExitCall) (cb : Callback)
    (a : Activation) (rest : List Frame) : State :=
  let th := s.threads t
  let invokingInfo := th.getHookInvokingInfo
  let s := (s.clearAddress c.retV).clearAddress c.metInfo
  let desc := jvm.methodDesc a.method
  let (calls, refs) :=
    forceReturn (charAt desc (pastEnd (indexOf desc ')' 0))) cb.returnForce s.refs
  let s := { s with refs := refs }
  let s := s.free invokingInfo.hooks
  let s := (s.clearAddress c.retV).clearAddress c.cc
  let s := { s with
    callbacks := s.callbacks.modify c.callback fun cb => { cb with returned := true } }
  s.setThread t
    { th with
      info := some { invokingInfo with hooks := none, exitingMethod := false }
      frames := rest
      forced := th.forced ++ calls }

/-! ## onClassPrepare -/

def onClassPrepare (jvm : Jvm) (s : State) (t : Tid) (klass : Klass) : State :=
  let th := s.threads t
  let hookinfo := th.getHookInvokingInfo
  let klassLoader := jvm.GetClassLoader klass
  if hookinfo.broadcastingMethodPrepareLoad || hookinfo.runningHook then
    s.setThread t (th.setInfo hookinfo)
  else if klassLoader = none then s.setThread t (th.setInfo hookinfo)
  else if klassLoader = jvm.classLoaderX then s.setThread t (th.setInfo hookinfo)
  else if klassLoader = jvm.extClassLoader then s.setThread t (th.setInfo hookinfo)
  else
    s.setThread t
      ((th.setInfo { hookinfo with broadcastingMethodPrepareLoad := true }).push .classPrepare)

/-- `onClassPrepare` after `CallStaticVoidMethod(broadcastClassPrepare)` has returned. -/
def onClassPrepare.finish (s : State) (t : Tid) (rest : List Frame) : State :=
  let th := s.threads t
  s.setThread t
    { th with
      info := some { th.getHookInvokingInfo with broadcastingMethodPrepareLoad := false }
      frames := rest }

/-! ## The machine -/

/-- What happens next.  Registry operations carry no thread: Java code of any thread
may call them, in a hook or outside. -/
inductive Label where
  | register (method : JmethodID) (hook : Option Obj)
  | unregister (method : JmethodID) (hook : Option Obj)
  /-- Thread `t` calls a method, which raises a method entry event. -/
  | call (t : Tid) (method : JmethodID) (frame : Locals)
  /-- The top activation of `t` returns or is unwound, which raises a method exit event. -/
  | leave (t : Tid) (was_popped_by_exception : Bool) (return_value : Option Jvalue)
  /-- A class is prepared on thread `t`. -/
  | prepare (t : Tid) (klass : Klass)
  /-- The entry callback on top of `t` calls `broadcastMethodEnter`. -/
  | broadcast (t : Tid)
  /-- The broadcast loop of the callback on top of `t` evaluates
  `valueOfPointer(pointer, i)` and calls the hook. -/
  | dispatch (t : Tid)
  /-- The broadcast of the callback on top of `t` returns, after its last hook or with
  an exception, and the callback runs to its end. -/
  | finish (t : Tid) (threw : Bool)
  /-- A native method is called on an object of a callback. -/
  | native (h : HandleId) (op : HandleOp)
  | threadEnd (t : Tid)

/-- Call a native method on an object.  A non-null address is dereferenced: when the
callback it belongs to has returned, that is a dangling stack pointer (`none`). -/
def State.native (s : State) (h : HandleId) (op : HandleOp) : Option (Result × State) :=
  match s.handles[h]? with
  | none => none
  | some handle =>
      match handle.address with
      | none =>
          match op.call handle.cls none s.refs with
          | none => none
          | some (result, _, refs) => some (result, { s with refs := refs })
      | some callback =>
          match s.callbacks[callback]? with
          | none => none
          | some cb =>
              if cb.returned then none
              else
                match op.call handle.cls (some cb) s.refs with
                | none => none
                | some (result, cb, refs) => some (result,
                    { s with
                      refs := refs
                      callbacks := s.callbacks.modify callback fun old => cb.getD old })

def step (jvm : Jvm) (s : State) : Label → Option State
  | .register method hook =>
      some { s with registry := registerHook s.registry method hook }
  | .unregister method hook =>
      match unregisterHook jvm s.registry method hook with
      | none => none
      | some registry => some { s with
          registry := registry, unregistered := s.unregistered ++ [(method, hook)] }
  | .call t method frame =>
      if (s.threads t).ended then none else onMethodEntry jvm s t method frame
  | .leave t was_popped_by_exception return_value =>
      match (s.threads t).frames with
      | .activation a :: rest =>
          onMethodExit jvm s t a rest was_popped_by_exception return_value
      | _ => none
  | .prepare t klass =>
      if (s.threads t).ended then none else some (onClassPrepare jvm s t klass)
  | .broadcast t =>
      match (s.threads t).frames with
      | .methodEntry c :: rest =>
          match c.loop with
          | none => some (s.setThread t
              { s.threads t with frames := .methodEntry { c with loop := some 0 } :: rest })
          | some _ => none
      | _ => none
  | .dispatch t =>
      -- the loop goes on whatever the cell holds; `State.handed` says what that is
      match (s.threads t).frames with
      | .methodEntry c :: rest =>
          match c.loop with
          | none => none
          | some i =>
              if i < c.hookCount then some (s.setThread t
                { s.threads t with
                  frames := .methodEntry { c with loop := some (i + 1) } :: rest })
              else none
      | .methodExit c :: rest =>
          if c.i < c.size then some (s.setThread t
            { s.threads t with frames := .methodExit { c with i := c.i + 1 } :: rest })
          else none
      | _ => none
  | .finish t threw =>
      match (s.threads t).frames with
      | .methodEntry c :: .activation a :: rest =>
          match c.loop with
          | none => none
          | some i =>
              if threw || i = c.hookCount then
                (s.callbacks[c.callback]?).map fun cb => onMethodEntry.finish jvm s t c cb a rest
              else none
      | .methodExit c :: .activation a :: rest =>
          if threw || c.i = c.size then
            (s.callbacks[c.callback]?).map fun cb => onMethodExit.finish jvm s t c cb a rest
          else none
      | .classPrepare :: rest => some (onClassPrepare.finish s t rest)
      | _ => none
  | .native h op =>
      match s.native h op with
      | none => none
      | some (_, s) => some s
  | .threadEnd t =>
      match (s.threads t).frames with
      | [] =>
          if (s.threads t).ended then none
          else some (s.setThread t { s.threads t with info := none, ended := true })
      | _ => none

end JvmHookFramework
