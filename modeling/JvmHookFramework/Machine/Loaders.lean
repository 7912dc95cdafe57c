/-
  Machine/Loaders.lean --- the framework and its extensions are never hooked.

  `onMethodEntry` and `onClassPrepare` compare the class loader before they broadcast;
  `onMethodExit` does not.  It may rely on the record: `targetMethod` is only ever set by
  an entry callback that has passed the comparison, and no other step writes it.
-/
import Mathlib.Logic.Function.Basic
import JvmHookFramework.Machine.Nesting

set_option autoImplicit false

namespace JvmHookFramework

open Foundation

/-! ## Own code -/

/-- The class has the loader of the framework or that of the extensions. -/
def Jvm.OwnClass (jvm : Jvm) (klass : Klass) : Prop :=
  jvm.GetClassLoader klass = jvm.classLoaderX ∨ jvm.GetClassLoader klass = jvm.extClassLoader

theorem Jvm.skipsEntry_of_ownClass {jvm : Jvm} {method : JmethodID}
    (hext : jvm.extClassLoader ≠ none)
    (hown : jvm.OwnClass (jvm.GetMethodDeclaringClass method)) :
    jvm.skipsEntry method = true := by
  unfold Jvm.skipsEntry
  rcases hown with hframework | hextension
  · simp [hframework]
  · simp [hextension, hext]

/-! ## Broadcasts and what they are for -/

/-- A call of one of the three static methods of the bridge class. -/
inductive Broadcast where
  | broadcastMethodEnter (method : JmethodID)
  | broadcastMethodExit (method : JmethodID)
  | broadcastClassPrepare (klass : Klass)
  deriving DecidableEq, Repr

/-- The broadcast is for code that must not be hooked. -/
def Broadcast.ForOwnCode (jvm : Jvm) : Broadcast → Prop
  | .broadcastMethodEnter method | .broadcastMethodExit method =>
      jvm.OwnClass (jvm.GetMethodDeclaringClass method)
  | .broadcastClassPrepare klass => jvm.GetClassLoader klass = none ∨ jvm.OwnClass klass

/-- The broadcast that a step issues on `t`.  An entry callback is for the activation it
stands on, an exit callback for the one that is about to go. -/
inductive Issues (jvm : Jvm) (t : Tid) (s : State) : Label → Broadcast → Prop where
  | enter {s' : State} {c : EntryCall} {a : Activation} {rest : List Frame}
      (hstep : step jvm s (.broadcast t) = some s')
      (hstack : s.stack t = .methodEntry c :: .activation a :: rest) :
      Issues jvm t s (.broadcast t) (.broadcastMethodEnter a.method)
  | exit {s' : State} {popped : Bool} {value : Option Jvalue} {c : ExitCall} {a : Activation}
      {rest : List Frame} (hstep : step jvm s (.leave t popped value) = some s')
      (hstack : s.stack t = .activation a :: rest)
      (hbegins : s'.stack t = .methodExit c :: .activation a :: rest) :
      Issues jvm t s (.leave t popped value) (.broadcastMethodExit a.method)
  | prepare {s' : State} {klass : Klass} (hstep : step jvm s (.prepare t klass) = some s')
      (hbegins : s'.stack t = .classPrepare :: s.stack t) :
      Issues jvm t s (.prepare t klass) (.broadcastClassPrepare klass)

/-! ## The invariant -/

/-- Every entry callback stands on the activation of a method that the class-loader
checks let through. -/
def EntriesPass (jvm : Jvm) : List Frame → Prop
  | [] => True
  | .methodEntry _ :: rest =>
      (∃ a outer, rest = .activation a :: outer ∧ jvm.skipsEntry a.method = false) ∧
        EntriesPass jvm rest
  | .activation _ :: rest | .methodExit _ :: rest | .classPrepare :: rest => EntriesPass jvm rest

/-- The record and the stack of a thread have nothing of the framework's own code. -/
structure OwnCodeFree (jvm : Jvm) (info : HookInvokingInfo) (stack : List Frame) : Prop where
  target : ∀ method, info.targetMethod = some method → jvm.skipsEntry method = false
  entries : EntriesPass jvm stack

theorem ownCodeFree_empty (jvm : Jvm) : OwnCodeFree jvm {} [] where
  target := by
    intro method hmethod
    cases hmethod
  entries := trivial

section

variable {jvm : Jvm} {s s' : State} {t : Tid} {l : Label} {info : HookInvokingInfo}
  {stack : List Frame}

theorem EntryPasses.skipsEntry {method : JmethodID} (h : EntryPasses jvm s t method) :
    jvm.skipsEntry method = false :=
  eq_false_of_ne_true fun hskips => h.2 (Or.inr (Or.inr hskips))

theorem OwnCodeFree.thread (h : OwnCodeFree jvm (s.info t) (s.stack t))
    (hthread : ThreadStep jvm s t l info stack) : OwnCodeFree jvm info stack := by
  obtain ⟨htarget, hentries⟩ := h
  cases hthread with
  | idle => exact ⟨htarget, hentries⟩
  | ended => exact ownCodeFree_empty jvm
  | called => exact ⟨htarget, hentries⟩
  | @entryBegins method frame c hpasses =>
      refine ⟨fun m hm => ?_, ⟨_, _, rfl, hpasses.skipsEntry⟩, hentries⟩
      obtain rfl := Option.some.inj hm
      exact hpasses.skipsEntry
  | left hstack =>
      rw [hstack] at hentries
      exact ⟨htarget, hentries⟩
  | exitBegins hstack =>
      rw [hstack] at hentries
      exact ⟨htarget, hentries⟩
  | prepareBegins => exact ⟨htarget, hentries⟩
  | entryLoops hstack =>
      rw [hstack] at hentries
      exact ⟨htarget, hentries⟩
  | exitLoops hstack =>
      rw [hstack] at hentries
      exact ⟨htarget, hentries⟩
  | entryEnds hstack =>
      rw [hstack] at hentries
      exact ⟨htarget, hentries.2⟩
  | exitEnds hstack =>
      rw [hstack] at hentries
      exact ⟨htarget, hentries⟩
  | prepareEnds hstack =>
      rw [hstack] at hentries
      exact ⟨htarget, hentries⟩

/-- Whatever the registry holds at first. -/
theorem ownCodeFree_of_reachable {registry : Registry}
    (h : Reachable (step jvm) { initialState with registry := registry } s) (t : Tid) :
    OwnCodeFree jvm (s.info t) (s.stack t) := by
  let inv : State → Prop := fun s => OwnCodeFree jvm (s.info t) (s.stack t)
  have hinit : inv { initialState with registry := registry } := ownCodeFree_empty jvm
  refine @reachable_invariant _ _ _ inv _ _ hinit ?_ h
  intro s l s' hfree hstep
  exact OwnCodeFree.thread hfree ((step_cases hstep).thread t)

/-! ## What a step issues -/

/-- Every start of a method broadcast is issued for some method. -/
theorem StartsBroadcast.issues (h : StartsBroadcast jvm t s l)
    (hfree : OwnCodeFree jvm (s.info t) (s.stack t)) : ∃ b, Issues jvm t s l b := by
  rcases startsBroadcast_cases h with hpasses | ⟨c, rest, rfl, hstack, hloop⟩
  · obtain ⟨popped, value, a, rest, hooks, rfl, hstack, hpasses⟩ := hpasses
    have hstep := hpasses.step_leave hstack popped value
    obtain ⟨c, hc, _⟩ := onMethodExit.stack_begin jvm s t a rest hooks popped value
    exact ⟨_, .exit hstep hstack hc⟩
  · obtain ⟨s', hstep, _⟩ := h
    have hentries := hfree.entries
    rw [hstack] at hentries
    obtain ⟨⟨a, outer, rfl, _⟩, _⟩ := hentries
    exact ⟨_, .enter hstep hstack⟩

/-- The exiting method of an exit broadcast is the target of the record. -/
theorem Issues.target {method : JmethodID} (h : Issues jvm t s l (.broadcastMethodExit method))
    (hderef : Function.Injective jvm.deref) : (s.info t).targetMethod = some method := by
  cases h with
  | exit hstep hstack hbegins =>
      rw [← hstack] at hbegins
      obtain ⟨_, _, a, rest, _, hstack', hpasses, _⟩ :=
        ((step_cases hstep).thread t).exit_begins hbegins
      obtain ⟨_, _, target, htarget, hkey⟩ := hpasses
      have ha := (List.cons.inj (hstack'.symm.trans hstack)).1
      rw [htarget, hderef hkey, Frame.activation.inj ha]

theorem prepare_passes {klass : Klass} (hstep : Step jvm s (.prepare t klass) s')
    (hbegins : s'.stack t = .classPrepare :: s.stack t) :
    PreparePasses jvm (s.info t) klass := by
  cases hstep with
  | prepareSkipped halive hguard =>
      rw [State.stack_setThread_self] at hbegins
      have hlength := congrArg List.length hbegins
      exact absurd hlength (Nat.ne_of_lt (Nat.lt_succ_self _))
  | prepareBroadcast halive hpasses => exact hpasses

end

/-- In every run, whatever hooks are registered and whatever callbacks the steps nest in, no
broadcast is issued for code of the framework or of the extensions. -/
theorem own_code_never_broadcast (jvm : Jvm) (hderef : Function.Injective jvm.deref)
    (hext : jvm.extClassLoader ≠ none) (registry : Registry) (t : Tid) (ls : List Label)
    (s : State) (l : Label)
    (htakes : Takes (step jvm) { initialState with registry := registry } ls s l) :
    (StartsBroadcast jvm t s l → ∃ b, Issues jvm t s l b) ∧
      ∀ b, Issues jvm t s l b → ¬ b.ForOwnCode jvm := by
  have hfree : OwnCodeFree jvm (s.info t) (s.stack t) :=
    ownCodeFree_of_reachable htakes.reachable t
  refine ⟨fun hstarts => hstarts.issues hfree, fun b hissues hown => ?_⟩
  cases b with
  | broadcastMethodEnter method =>
      cases hissues with
      | enter hstep hstack =>
          have hentries := hfree.entries
          rw [hstack] at hentries
          obtain ⟨⟨a, outer, hrest, hpasses⟩, _⟩ := hentries
          obtain rfl := Frame.activation.inj (List.cons.inj hrest).1
          have hskips := Jvm.skipsEntry_of_ownClass hext hown
          exact Bool.false_ne_true (hpasses.symm.trans hskips)
  | broadcastMethodExit method =>
      have hpasses := hfree.target method (hissues.target hderef)
      have hskips := Jvm.skipsEntry_of_ownClass hext hown
      exact Bool.false_ne_true (hpasses.symm.trans hskips)
  | broadcastClassPrepare klass =>
      cases hissues with
      | prepare hstep hbegins =>
          obtain ⟨_, _, hboot, hframework, hextension⟩ :=
            prepare_passes (step_cases hstep) hbegins
          rcases hown with hnull | hX | hE
          · exact hboot hnull
          · exact hframework hX
          · exact hextension hE

/-- The exit broadcast of a hooked method. -/
theorem own_code_never_broadcast_exit :
    ∃ s, Issues .plain 0 s (.leave 0 false none) (.broadcastMethodExit ⟨1⟩) ∧
      ¬ (Broadcast.broadcastMethodExit ⟨1⟩).ForOwnCode .plain := by
  let registry : Registry := registerHook initialRegistry ⟨1⟩ (some ⟨5⟩)
  let initial : State := { initialState with registry := registry }
  let ls : List Label := [.call 0 ⟨1⟩ fun _ => none, .broadcast 0, .finish 0 true]
  let s := (run (step .plain) initial ls).get rfl
  have htakes : Takes (step .plain) initial (ls ++ [.leave 0 false none]) s
      (.leave 0 false none) := ⟨ls, [], rfl, rfl⟩
  have hderef : Function.Injective Jvm.plain.deref := by
    rintro ⟨m⟩ ⟨m'⟩ hkey
    exact congrArg JmethodID.mk hkey
  have hissues : Issues .plain 0 s (.leave 0 false none) (.broadcastMethodExit ⟨1⟩) :=
    .exit (a := { entered ⟨1⟩ (fun _ => none) with broadcast := some 0 }) rfl rfl rfl
  exact ⟨s, hissues, (own_code_never_broadcast .plain hderef (by decide) registry 0 _ s _
    htakes).2 _ hissues⟩

end JvmHookFramework
