/-
  Bridge/Model.lean --- the interface of the framework and its class prepare hooks.

  Extensions reach the registry through `JvmHookFrameworkBridge`, by the name of a method or
  by its reflection, and keep class prepare hooks in a queue of their own.  The queue is a
  `ConcurrentLinkedDeque`, so `broadcastClassPrepare` traverses it while other threads, and
  the hooks themselves, add to it and remove from it.  The state puts the queue and the
  loops that run over it beside the state of the machine.
-/
import JvmHookFramework.Foundation.Traversal
import JvmHookFramework.Agent.Refinement

set_option autoImplicit false

namespace JvmHookFramework

open Foundation Foundation.Traversal

namespace Bridge

/-- A `java.lang.reflect.Method`. -/
structure Method where
  id : Nat
  deriving DecidableEq, Repr

/-- What the virtual machine and the hooks answer to the interface. -/
structure Linkage where
  /-- An instance method of the class or of one it inherits from. -/
  GetMethodID : Klass → List Char → List Char → Option JmethodID
  GetStaticMethodID : Klass → List Char → List Char → Option JmethodID
  FromReflectedMethod : Method → JmethodID
  /-- `Object.equals` of a class prepare hook -/
  equals : Obj → Obj → Bool

/-- Method `m` is the only one that is found by name, hooks are equal when they are the same. -/
def Linkage.plain (m : JmethodID) : Linkage where
  GetMethodID _ _ _ := none
  GetStaticMethodID _ metName _ := if metName = ['m'] then some m else none
  FromReflectedMethod method := ⟨method.id⟩
  equals a b := a = b

inductive JavaError where
  | NoSuchMethodError
  | NullPointerException
  deriving DecidableEq, Repr

/-- A call of a method of `JvmHookFrameworkBridge`; `0` stands for the overloads that take
a `Method`. -/
inductive Call where
  | registerHook (target : Klass) (metName metDesc : List Char) (hook : Option Obj)
  | unregisterHook (target : Klass) (metName metDesc : List Char) (hook : Option Obj)
  | registerHook0 (method : Method) (hook : Option Obj)
  | unregisterHook0 (method : Method) (hook : Option Obj)
  | registerClassPrepareHook (hook : Option Obj)
  | unregisterClassPrepareHook (hook : Option Obj)

/-- What happens next. -/
inductive Label where
  /-- Anything but a change of the registry. -/
  | event (l : JvmHookFramework.Label)
  | call (c : Call)
  /-- The loop of `broadcastClassPrepare` on top of `t` calls the next hook. -/
  | accept (t : Tid)

/-- A loop of `broadcastClassPrepare(klass, loader)`. -/
structure Loop where
  klass : Klass
  loader : Option Obj
  iterator : Iterator Obj

structure State where
  agent : JvmHookFramework.State
  classPrepareLoadingHook : List (Option Obj)
  /-- The loops of a thread, the innermost first. -/
  loops : Tid → List Loop

def initial : State where
  agent := initialState
  classPrepareLoadingHook := []
  loops _ := []

section

variable (jvm : Jvm) (linkage : Linkage)

/-- The method and the exception that is pending: that of `GetMethodID` is cleared when
there is a static method. -/
def findMetOfHook (target : Klass) (metName metDesc : List Char) :
    Option JmethodID × Option JavaError :=
  match linkage.GetMethodID target metName metDesc with
  | some mi => (some mi, none)
  | none =>
      match linkage.GetStaticMethodID target metName metDesc with
      | some mx => (some mx, none)
      | none => (none, some .NoSuchMethodError)

/-- The machine takes a step of its own. -/
def State.native (s : State) (l : JvmHookFramework.Label) : Option State :=
  (JvmHookFramework.step jvm s.agent l).map fun agent => { s with agent := agent }

/-- Change the registry at the method that was looked up, if there is one. -/
def State.changeAt (s : State) (change : JmethodID → JvmHookFramework.Label) :
    Option JmethodID × Option JavaError → Option (Option JavaError × State)
  | (none, pending) => some (pending, s)
  | (some m, pending) => (s.native jvm (change m)).map fun s => (pending, s)

/-- A call, with the exception it throws. -/
def State.invoke (s : State) : Call → Option (Option JavaError × State)
  | .registerHook target metName metDesc hook =>
      s.changeAt jvm (fun m => .register m hook) (findMetOfHook linkage target metName metDesc)
  | .unregisterHook target metName metDesc hook =>
      s.changeAt jvm (fun m => .unregister m hook) (findMetOfHook linkage target metName metDesc)
  | .registerHook0 method hook =>
      s.changeAt jvm (fun m => .register m hook) (linkage.FromReflectedMethod method, none)
  | .unregisterHook0 method hook =>
      s.changeAt jvm (fun m => .unregister m hook) (linkage.FromReflectedMethod method, none)
  | .registerClassPrepareHook hook =>
      match hook with
      | none => some (some .NullPointerException, s)
      | some hook => some (none,
          { s with classPrepareLoadingHook := add s.classPrepareLoadingHook hook })
  | .unregisterClassPrepareHook hook =>
      match hook with
      | none => some (some .NullPointerException, s)
      | some hook => some (none,
          { s with
            classPrepareLoadingHook := remove (linkage.equals hook) s.classPrepareLoadingHook })

/-- The loop begins when `onClassPrepare` calls `broadcastClassPrepare`; it ends when its
iterator has no next hook, or by an exception. -/
def step (s : State) : Label → Option State
  | .event (.register _ _) | .event (.unregister _ _) => none
  | .event (.prepare t klass) =>
      (s.native jvm (.prepare t klass)).map fun s' =>
        if PreparePasses jvm (s.agent.info t) klass then
          { s' with
            loops := Function.update s.loops t
              (⟨klass, jvm.GetClassLoader klass, iterator s.classPrepareLoadingHook⟩ ::
                s.loops t) }
        else s'
  | .event (.finish t threw) =>
      match s.agent.stack t, s.loops t with
      | .classPrepare :: _, loop :: outer =>
          if threw || loop.iterator.next.isNone then
            (s.native jvm (.finish t threw)).map fun s' =>
              { s' with loops := Function.update s.loops t outer }
          else none
      | .classPrepare :: _, [] => none
      | _, _ => s.native jvm (.finish t threw)
  | .event l => s.native jvm l
  | .call c => (s.invoke jvm linkage c).map Prod.snd
  | .accept t =>
      match s.agent.stack t, s.loops t with
      | .classPrepare :: _, loop :: outer =>
          (loop.iterator.advance s.classPrepareLoadingHook).map fun next =>
            { s with
              loops := Function.update s.loops t ({ loop with iterator := next.2 } :: outer) }
      | _, _ => none

/-- The step of the machine that a label takes: a call that finds no method takes none. -/
def Label.native : Label → Option JvmHookFramework.Label
  | .event l => some l
  | .call (.registerHook target metName metDesc hook) =>
      (findMetOfHook linkage target metName metDesc).1.map fun m => .register m hook
  | .call (.unregisterHook target metName metDesc hook) =>
      (findMetOfHook linkage target metName metDesc).1.map fun m => .unregister m hook
  | .call (.registerHook0 method hook) =>
      some (.register (linkage.FromReflectedMethod method) hook)
  | .call (.unregisterHook0 method hook) =>
      some (.unregister (linkage.FromReflectedMethod method) hook)
  | .call (.registerClassPrepareHook _) | .call (.unregisterClassPrepareHook _) | .accept _ =>
      none

/-- The class prepare hooks after some calls, as a list. -/
def registered (hooks : List Obj) : Label → List Obj
  | .call (.registerClassPrepareHook (some hook)) => hooks ++ [hook]
  | .call (.unregisterClassPrepareHook (some hook)) => hooks.eraseP (linkage.equals hook)
  | _ => hooks

/-- What happens to the loops: where one begins, whom it calls, how it ends. -/
def tourLog (s : State) : Label → List (Tid × Visit (Klass × Option Obj) Obj)
  | .event (.prepare t klass) =>
      if PreparePasses jvm (s.agent.info t) klass then
        [(t, .start (klass, jvm.GetClassLoader klass) s.classPrepareLoadingHook)]
      else []
  | .event (.finish t threw) =>
      match s.agent.stack t with
      | .classPrepare :: _ => [(t, .stop threw s.classPrepareLoadingHook)]
      | _ => []
  | .accept t =>
      match s.agent.stack t, s.loops t with
      | .classPrepare :: _, loop :: _ =>
          loop.iterator.next.toList.map fun node => (t, .visit (loop.klass, loop.loader) node)
      | _, _ => []
  | _ => []

end

end Bridge

end JvmHookFramework
