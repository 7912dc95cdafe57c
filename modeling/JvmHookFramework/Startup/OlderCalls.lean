/-
  Startup/OlderCalls.lean --- the calls that are older than the method events.

  The events are enabled one after the other, while the threads of the virtual machine run.
  A thread may be in methods that were called before METHOD_ENTRY was enabled, and their
  exits raise events for which there was no entry event.  `onMethodExit` passes over them,
  since the record of the thread is empty; unless a method whose entry was broadcast has
  returned between the two calls of `SetEventNotificationMode`: no event told of this
  return, and the array of the broadcast stays in the record.
-/
import JvmHookFramework.Machine.Owner
import JvmHookFramework.Startup.ExtLoader

set_option autoImplicit false

namespace JvmHookFramework

open Foundation Foundation.GuardStack

namespace Startup

/-! ## The agent and its events -/

/-- The agent, and the events it is sent. -/
structure Attached where
  agent : State
  enabled : EventKind → Bool

/-- `Agent_OnLoad` has returned; of the events here it has enabled none. -/
def Attached.initial : Attached := ⟨initialState, fun _ => false⟩

inductive Occurrence where
  /-- `SetEventNotificationMode(JVMTI_ENABLE, event, null)` -/
  | enable (event : EventKind)
  | machine (l : Label)

/-- The event that a label raises, if it has to be enabled. -/
def eventOf : Label → Option EventKind
  | .call _ _ _ => some .methodEntry
  | .leave _ _ _ => some .methodExit
  | .prepare _ _ => some .classPrepare
  | .register _ _ | .unregister _ _ | .broadcast _ | .dispatch _ | .finish _ _ | .native _ _
  | .threadEnd _ => none

def Attached.observes (s : Attached) (l : Label) : Bool := (eventOf l).all s.enabled

/-- What happens to the threads when the agent is not told. -/
def unobserved (s : State) : Label → Option State
  | .call t method frame =>
      if (s.threads t).ended then none
      else some (s.setThread t ((s.threads t).push (.activation (entered method frame))))
  | .leave t _ _ =>
      match (s.threads t).frames with
      | .activation _ :: rest => some (s.setThread t { s.threads t with frames := rest })
      | _ => none
  | .prepare t _ => if (s.threads t).ended then none else some s
  | _ => none

def Attached.step (jvm : Jvm) (s : Attached) : Occurrence → Option Attached
  | .enable event => some { s with enabled := Function.update s.enabled event true }
  | .machine l =>
      (if s.observes l then JvmHookFramework.step jvm s.agent l else unobserved s.agent l).map
        fun agent => { s with agent := agent }

/-- The method of a frame whose entry was broadcast, and the array of the broadcast. -/
def announced : Frame → List (JmethodID × ArrayId)
  | .activation a => (a.broadcast.map fun array => (a.method, array)).toList
  | .methodEntry _ | .methodExit _ | .classPrepare => []

/-- The method that returns on `t` without an event, if its entry was broadcast. -/
def returnsUnseen (t : Tid) (s : Attached) : Occurrence → List (JmethodID × ArrayId)
  | .machine (.leave u _ _) =>
      if u = t ∧ s.enabled .methodExit = false then
        (s.agent.stack t).head?.toList.flatMap announced
      else []
  | _ => []

/-- How a thread moves when the agent is not told; its record stays. -/
inductive Unobserved (s : State) (t : Tid) : Label → List Frame → Prop where
  | idle {l : Label} : Unobserved s t l (s.stack t)
  | called {method : JmethodID} {frame : Locals} :
      Unobserved s t (.call t method frame) (.activation (entered method frame) :: s.stack t)
  | left {popped : Bool} {value : Option Jvalue} {a : Activation} {rest : List Frame}
      (hstack : s.stack t = .activation a :: rest) :
      Unobserved s t (.leave t popped value) rest

section

variable {jvm : Jvm} {s s' : State} {t : Tid} {l : Label}

theorem unobserved_setThread {u : Tid} {th : Thread}
    (hinfo : th.getHookInvokingInfo = s.info u)
    (hself : u = t → Unobserved s t l th.frames) :
    (s.setThread u th).info t = s.info t ∧ Unobserved s t l ((s.setThread u th).stack t) := by
  by_cases hu : t = u
  · subst hu
    rw [State.info_setThread_self, State.stack_setThread_self]
    exact ⟨hinfo, hself rfl⟩
  · unfold State.info State.stack
    rw [State.setThread_threads_of_ne s hu]
    exact ⟨rfl, .idle⟩

theorem unobserved_cases (h : unobserved s l = some s') (t : Tid) :
    s'.info t = s.info t ∧ Unobserved s t l (s'.stack t) := by
  cases l with
  | call u method frame =>
      simp only [unobserved] at h
      split at h
      · cases h
      · obtain rfl := Option.some.inj h
        refine unobserved_setThread rfl fun hu => ?_
        subst hu
        exact .called
  | leave u popped value =>
      simp only [unobserved] at h
      split at h
      · rename_i a rest hframes
        obtain rfl := Option.some.inj h
        refine unobserved_setThread rfl fun hu => ?_
        subst hu
        exact .left hframes
      · cases h
  | prepare u klass =>
      simp only [unobserved] at h
      split at h
      · cases h
      · obtain rfl := Option.some.inj h
        exact ⟨rfl, .idle⟩
  | register | unregister | broadcast | dispatch | finish | native | threadEnd => cases h

end

/-- How an occurrence may move a thread. -/
theorem Attached.step_cases {jvm : Jvm} {s s' : Attached} {o : Occurrence}
    (h : s.step jvm o = some s') (t : Tid) :
    (∃ event, o = .enable event ∧
      s' = { s with enabled := Function.update s.enabled event true }) ∨
    ∃ l, o = .machine l ∧ s'.enabled = s.enabled ∧
      ((s.observes l = true ∧
          ThreadStep jvm s.agent t l (s'.agent.info t) (s'.agent.stack t)) ∨
        (s.observes l = false ∧ s'.agent.info t = s.agent.info t ∧
          Unobserved s.agent t l (s'.agent.stack t))) := by
  cases o with
  | enable event => exact Or.inl ⟨event, rfl, (Option.some.inj h).symm⟩
  | machine l =>
      obtain ⟨agent, hagent, rfl⟩ := Option.map_eq_some_iff.mp h
      refine Or.inr ⟨l, rfl, rfl, ?_⟩
      cases hobserves : s.observes l with
      | true =>
          rw [if_pos hobserves] at hagent
          exact Or.inl ⟨rfl, (JvmHookFramework.step_cases hagent).thread t⟩
      | false =>
          rw [if_neg (hobserves ▸ Bool.false_ne_true)] at hagent
          exact Or.inr ⟨rfl, unobserved_cases hagent t⟩

/-! ## What the older calls are -/

/-- A call whose entry was not broadcast, or a class that is being prepared. -/
def Unannounced : Frame → Prop
  | .activation a => a.broadcast = none
  | .classPrepare => True
  | .methodEntry _ | .methodExit _ => False

/-- Before METHOD_ENTRY is enabled nothing is broadcast to a thread but its classes. -/
def BeforeEntries (t : Tid) (s : Attached) : Prop :=
  s.enabled .methodEntry = false →
    (s.agent.info t).hooks = none ∧ ∀ f ∈ s.agent.stack t, Unannounced f

section

variable {jvm : Jvm} {s : State} {t : Tid} {l : Label} {info : HookInvokingInfo}
  {stack : List Frame}

theorem unannounced_thread (hhooks : (s.info t).hooks = none)
    (h : ∀ f ∈ s.stack t, Unannounced f) (hthread : ThreadStep jvm s t l info stack)
    (hentry : ∀ method frame, l ≠ .call t method frame) :
    info.hooks = none ∧ ∀ f ∈ stack, Unannounced f := by
  cases hthread with
  | idle => exact ⟨hhooks, h⟩
  | ended => exact ⟨rfl, fun _ hf => absurd hf List.not_mem_nil⟩
  | @called method frame | @entryBegins method frame => exact absurd rfl (hentry method frame)
  | left hstack =>
      rw [hstack, List.forall_mem_cons] at h
      exact ⟨hhooks, h.2⟩
  | exitBegins hstack hpasses => exact absurd (hpasses.1.symm.trans hhooks) (Option.some_ne_none _)
  | prepareBegins => exact ⟨hhooks, List.forall_mem_cons.mpr ⟨trivial, h⟩⟩
  | entryLoops hstack | exitLoops hstack | entryEnds hstack | exitEnds hstack =>
      rw [hstack, List.forall_mem_cons] at h
      exact absurd h.1 id
  | prepareEnds hstack =>
      rw [hstack, List.forall_mem_cons] at h
      exact ⟨hhooks, h.2⟩

theorem unannounced_unobserved (h : ∀ f ∈ s.stack t, Unannounced f)
    (hmoved : Unobserved s t l stack) : ∀ f ∈ stack, Unannounced f := by
  cases hmoved with
  | idle => exact h
  | called => exact List.forall_mem_cons.mpr ⟨rfl, h⟩
  | left hstack =>
      rw [hstack, List.forall_mem_cons] at h
      exact h.2

end

theorem BeforeEntries.step {jvm : Jvm} {s s' : Attached} {o : Occurrence} {t : Tid}
    (h : BeforeEntries t s) (hstep : s.step jvm o = some s') : BeforeEntries t s' := by
  intro hdisabled
  rcases Attached.step_cases hstep t with ⟨event, rfl, rfl⟩ |
    ⟨l, rfl, henabled, ⟨hobserves, hthread⟩ | ⟨_, hinfo, hmoved⟩⟩
  · refine h ?_
    have hupdated : Function.update s.enabled event true .methodEntry = false := hdisabled
    by_cases hevent : EventKind.methodEntry = event
    · rw [← hevent, Function.update_self] at hupdated
      exact absurd hupdated.symm Bool.false_ne_true
    · rwa [Function.update_of_ne hevent] at hupdated
  · rw [henabled] at hdisabled
    obtain ⟨hhooks, hframes⟩ := h hdisabled
    refine unannounced_thread hhooks hframes hthread fun method frame hl => ?_
    subst hl
    have hentry : s.enabled .methodEntry = true := hobserves
    exact Bool.false_ne_true (hdisabled.symm.trans hentry)
  · rw [henabled] at hdisabled
    obtain ⟨hhooks, hframes⟩ := h hdisabled
    rw [hinfo]
    exact ⟨hhooks, unannounced_unobserved hframes hmoved⟩

/-! ## They stay as they are -/

/-- No entry callback of the list is for a call below the list. -/
def Rooted : List Frame → Prop
  | [] => True
  | .methodEntry _ :: rest => rest ≠ [] ∧ Rooted rest
  | .activation _ :: rest | .methodExit _ :: rest | .classPrepare :: rest => Rooted rest

theorem Rooted.tail {f : Frame} {rest : List Frame} (h : Rooted (f :: rest)) : Rooted rest := by
  cases f with
  | methodEntry c => exact h.2
  | activation a => exact h
  | methodExit c => exact h
  | classPrepare => exact h

theorem rooted_of_unannounced {frames : List Frame} (h : ∀ f ∈ frames, Unannounced f) :
    Rooted frames := by
  induction frames with
  | nil => trivial
  | cons f rest ih =>
      have hrest := ih (fun g hg => h g (List.mem_cons_of_mem f hg))
      have hf := h f List.mem_cons_self
      cases f with
      | methodEntry c => exact absurd hf id
      | activation a => exact hrest
      | methodExit c => exact absurd hf id
      | classPrepare => exact hrest

/-- The stack ends with `older`, and the callbacks above are for calls above. -/
def StandsOn (older stack : List Frame) : Prop := ∃ above, stack = above ++ older ∧ Rooted above

section

variable {older stack rest : List Frame} {f : Frame}

theorem standsOn_of_suffix (hframes : ∀ f ∈ stack, Unannounced f) (h : older <:+ stack) :
    StandsOn older stack := by
  obtain ⟨above, rfl⟩ := h
  exact ⟨above, rfl, rooted_of_unannounced fun f hf => hframes f (List.mem_append_left _ hf)⟩

theorem StandsOn.push (h : StandsOn older stack) (hf : Rooted [f]) :
    StandsOn older (f :: stack) := by
  obtain ⟨above, rfl, hrooted⟩ := h
  refine ⟨f :: above, rfl, ?_⟩
  cases f with
  | methodEntry c => exact absurd rfl hf.1
  | activation a => exact hrooted
  | methodExit c => exact hrooted
  | classPrepare => exact hrooted

theorem StandsOn.pop (h : StandsOn older (f :: rest)) (hlength : older.length ≤ rest.length) :
    StandsOn older rest := by
  obtain ⟨above, heq, hrooted⟩ := h
  cases above with
  | nil =>
      rw [List.nil_append] at heq
      rw [← heq, List.length_cons] at hlength
      omega
  | cons g above =>
      obtain ⟨rfl, rfl⟩ := List.cons.inj heq
      exact ⟨above, rfl, hrooted.tail⟩

/-- A callback on top of the stack stands above `older`. -/
theorem StandsOn.above (holder : ∀ g ∈ older, Unannounced g) (hf : ¬ Unannounced f)
    (h : StandsOn older (f :: rest)) :
    ∃ above, rest = above ++ older ∧ Rooted (f :: above) := by
  obtain ⟨above, heq, hrooted⟩ := h
  cases above with
  | nil =>
      rw [List.nil_append] at heq
      exact absurd (holder f (heq ▸ List.mem_cons_self)) hf
  | cons g above =>
      obtain ⟨rfl, rfl⟩ := List.cons.inj heq
      exact ⟨above, rfl, hrooted⟩

theorem StandsOn.entryBegins (h : StandsOn older stack) (c : EntryCall) (a : Activation) :
    StandsOn older (.methodEntry c :: .activation a :: stack) := by
  obtain ⟨above, rfl, hrooted⟩ := h
  exact ⟨.methodEntry c :: .activation a :: above, rfl, List.cons_ne_nil _ above, hrooted⟩

theorem StandsOn.entryEnds {c : EntryCall} {a a' : Activation}
    (holder : ∀ g ∈ older, Unannounced g)
    (h : StandsOn older (.methodEntry c :: .activation a :: rest)) :
    StandsOn older (.activation a' :: rest) := by
  obtain ⟨above, heq, hne, hrooted⟩ := h.above holder id
  cases above with
  | nil => exact absurd rfl hne
  | cons g above =>
      obtain ⟨rfl, rfl⟩ := List.cons.inj heq
      exact ⟨.activation a' :: above, rfl, hrooted⟩

variable {jvm : Jvm} {s : State} {t : Tid} {l : Label} {info : HookInvokingInfo}

theorem StandsOn.thread (holder : ∀ g ∈ older, Unannounced g) (h : StandsOn older (s.stack t))
    (hthread : ThreadStep jvm s t l info stack) (hlength : older.length ≤ stack.length) :
    StandsOn older stack := by
  cases hthread with
  | idle => exact h
  | ended hstack => rwa [hstack] at h
  | called => exact h.push trivial
  | entryBegins => exact h.entryBegins _ _
  | left hstack =>
      rw [hstack] at h
      exact h.pop hlength
  | exitBegins hstack =>
      rw [hstack] at h
      exact h.push trivial
  | prepareBegins => exact h.push trivial
  | entryLoops hstack =>
      rw [hstack] at h
      obtain ⟨above, rfl, hrooted⟩ := h.above holder id
      exact ⟨_ :: above, rfl, hrooted⟩
  | exitLoops hstack =>
      rw [hstack] at h
      obtain ⟨above, rfl, hrooted⟩ := h.above holder id
      exact ⟨_ :: above, rfl, hrooted⟩
  | entryEnds hstack =>
      rw [hstack] at h
      exact h.entryEnds holder
  | exitEnds hstack =>
      rw [hstack] at h
      exact (h.pop (Nat.le_succ_of_le hlength)).pop hlength
  | prepareEnds hstack =>
      rw [hstack] at h
      exact h.pop hlength

theorem StandsOn.unobserved (h : StandsOn older (s.stack t)) (hmoved : Unobserved s t l stack)
    (hlength : older.length ≤ stack.length) : StandsOn older stack := by
  cases hmoved with
  | idle => exact h
  | called => exact h.push trivial
  | left hstack =>
      rw [hstack] at h
      exact h.pop hlength

end

/-! ## What the record may hold -/

/-- The array is that of the topmost activation that was broadcast, or of one that has returned
unseen; the target is its method, unless an entry callback has written its own already. -/
def ComesFrom (unseen : List (JmethodID × ArrayId)) (info : HookInvokingInfo)
    (stack : List Frame) (array : ArrayId) : Prop :=
  Topmost (fun a => a.broadcast = some array ∧
    (info.runningHook = false → info.targetMethod = some a.method)) stack ∨
  ∃ m, (m, array) ∈ unseen ∧ (info.runningHook = false → info.targetMethod = some m)

/-- The array in the record comes from an activation that was broadcast. -/
structure Traced (unseen : List (JmethodID × ArrayId)) (info : HookInvokingInfo)
    (stack : List Frame) : Prop where
  flags : Exact info.flag (guards stack)
  nested : (guards stack).Pairwise MayNest
  calls : Owned { info with hooks := none } stack
  owner : ∀ array, info.hooks = some array → ComesFrom unseen info stack array

theorem traced_empty : Traced [] {} [] where
  flags := by
    rw [flag_default]
    exact exact_nil
  nested := .nil
  calls := owned_empty
  owner := by
    intro array harray
    cases harray

section

variable {jvm : Jvm} {s : State} {t : Tid} {l : Label} {info : HookInvokingInfo}
  {stack : List Frame} {unseen : List (JmethodID × ArrayId)}

theorem Traced.calls_thread (h : Traced unseen (s.info t) (s.stack t))
    (hthread : ThreadStep jvm s t l info stack) : Owned { info with hooks := none } stack := by
  have hload : Guard.runningHook ≠ .broadcastingMethodPrepareLoad := by decide
  obtain ⟨hflags, hnested, hcalls, _⟩ := h
  cases hthread with
  | idle => exact hcalls
  | ended => exact owned_empty
  | called => exact hcalls.called _ _
  | entryBegins => exact hcalls.entryBegins.withoutHooks
  | left hstack =>
      rw [hstack] at hcalls hflags
      exact hcalls.left_withoutHooks hflags
  | exitBegins hstack =>
      rw [hstack] at hcalls
      exact ⟨hcalls.outside, fun hset => below_methodExit.mpr (hcalls.entering hset),
        hcalls.owner⟩
  | prepareBegins =>
      exact ⟨hcalls.outside, fun hset => (below_classPrepare hload).mpr (hcalls.entering hset),
        hcalls.owner⟩
  | entryLoops hstack | exitLoops hstack =>
      rw [hstack] at hcalls
      exact ⟨hcalls.outside, hcalls.entering, hcalls.owner⟩
  | entryEnds hstack hmethod hbroadcast =>
      rw [hstack] at hcalls hflags hnested
      rw [← flag_withoutHooks] at hflags
      exact (hcalls.entryEnds hflags hnested hmethod hbroadcast).withoutHooks
  | exitEnds hstack =>
      rw [hstack] at hcalls
      exact hcalls.exitEnds
  | prepareEnds hstack =>
      rw [hstack] at hcalls
      exact ⟨hcalls.outside, fun hset => (below_classPrepare hload).mp (hcalls.entering hset),
        hcalls.owner⟩

theorem Traced.owner_left {a : Activation} {rest : List Frame}
    (h : Traced unseen (s.info t) (s.stack t)) (hstack : s.stack t = .activation a :: rest)
    (hguard : ExitSkipped jvm (s.info t) a.method) {array : ArrayId}
    (harray : (s.info t).hooks = some array) : ComesFrom unseen (s.info t) rest array := by
  obtain ⟨hflags, _, hcalls, howner⟩ := h
  rw [hstack] at hflags hcalls howner
  rcases howner array harray with htop | hleft
  · by_cases hnone : a.broadcast = none
    · exact Or.inl ((topmost_of_none hnone).mp htop)
    · -- The activation is the owner of the record, so its exit is not skipped.
      rw [← flag_withoutHooks] at hflags
      obtain ⟨hrunning, hexiting⟩ := hcalls.flags_of_broadcast hflags hnone
      obtain ⟨_, htarget⟩ := (topmost_of_ne_none hnone).mp htop
      rcases hguard with hhooks | hset | ⟨target, htarget', hkey⟩
      · exact absurd (harray.symm.trans hhooks) (Option.some_ne_none array)
      · exact absurd (hexiting.symm.trans hset) Bool.false_ne_true
      · obtain rfl := Option.some.inj ((htarget hrunning).symm.trans htarget')
        exact absurd rfl hkey
  · exact Or.inr hleft

theorem Traced.owner_thread (h : Traced unseen (s.info t) (s.stack t))
    (hthread : ThreadStep jvm s t l info stack) {array : ArrayId}
    (harray : info.hooks = some array) : ComesFrom unseen info stack array := by
  cases hthread with
  | idle => exact h.owner array harray
  | ended => cases harray
  | called => exact (h.owner array harray).imp_left (topmost_of_none rfl).mpr
  | entryBegins =>
      -- The target is that of the entry callback, which runs.
      have hset : ∀ {P : Prop}, true = false → P := fun heq => absurd heq.symm Bool.false_ne_true
      rcases h.owner array harray with htop | ⟨m, hm, _⟩
      · exact Or.inl ((topmost_of_none rfl).mpr (htop.imp fun a ha => ⟨ha.1, hset⟩))
      · exact Or.inr ⟨m, hm, hset⟩
  | left hstack hguard => exact h.owner_left hstack hguard harray
  | prepareBegins => exact h.owner array harray
  | exitBegins hstack | entryLoops hstack | exitLoops hstack | prepareEnds hstack =>
      have howner := h.owner array harray
      rw [hstack] at howner
      exact howner
  | entryEnds hstack hmethod hbroadcast =>
      obtain ⟨hflags, hnested, hcalls, _⟩ := h
      rw [hstack] at hflags hnested hcalls
      rw [← flag_withoutHooks] at hflags
      exact Or.inl ((hcalls.entryEnds hflags hnested hmethod hbroadcast).owner array harray)
  | exitEnds => cases harray

/-- What the agent is told keeps the record traced. -/
theorem Traced.thread (h : Traced unseen (s.info t) (s.stack t))
    (hthread : ThreadStep jvm s t l info stack) : Traced unseen info stack where
  flags := by
    rcases hthread.moves with ⟨_, _, rfl, rfl⟩ | hmoves
    · rw [flag_default]
      exact exact_nil
    · exact h.flags.moves hmoves
  nested := hthread.mayNest h.flags h.nested
  calls := h.calls_thread hthread
  owner := fun _ harray => h.owner_thread hthread harray

theorem Traced.weaken (h : Traced unseen info stack) (more : List (JmethodID × ArrayId)) :
    Traced (unseen ++ more) info stack where
  flags := h.flags
  nested := h.nested
  calls := h.calls
  owner := fun array harray => (h.owner array harray).imp_right
    fun ⟨m, hm, htarget⟩ => ⟨m, List.mem_append_left more hm, htarget⟩

theorem Traced.called (h : Traced unseen info stack) (method : JmethodID) (frame : Locals) :
    Traced unseen info (.activation (entered method frame) :: stack) where
  flags := h.flags
  nested := h.nested
  calls := h.calls.called method frame
  owner := fun array harray => (h.owner array harray).imp_left (topmost_of_none rfl).mpr

theorem Traced.returns {a : Activation} {rest : List Frame}
    (h : Traced unseen info (.activation a :: rest)) :
    Traced (unseen ++ announced (.activation a)) info rest where
  flags := h.flags
  nested := h.nested
  calls := h.calls.left_withoutHooks h.flags
  owner := by
    intro array harray
    rcases h.owner array harray with htop | ⟨m, hm, htarget⟩
    · by_cases hnone : a.broadcast = none
      · exact Or.inl ((topmost_of_none hnone).mp htop)
      · obtain ⟨hbroadcast, htarget⟩ := (topmost_of_ne_none hnone).mp htop
        refine Or.inr ⟨a.method, List.mem_append_right _ ?_, htarget⟩
        rw [announced, hbroadcast]
        exact List.mem_singleton_self _
    · exact Or.inr ⟨m, List.mem_append_left _ hm, htarget⟩

end

theorem Traced.unobserved {s : Attached} {t : Tid} {l : Label} {stack : List Frame}
    {unseen : List (JmethodID × ArrayId)}
    (h : Traced unseen (s.agent.info t) (s.agent.stack t)) (hobserves : s.observes l = false)
    (hmoved : Unobserved s.agent t l stack) :
    Traced (unseen ++ returnsUnseen t s (.machine l)) (s.agent.info t) stack := by
  cases hmoved with
  | idle => exact h.weaken _
  | @called method frame => exact (h.called method frame).weaken _
  | left hstack =>
      have hdisabled : s.enabled .methodExit = false := hobserves
      rw [returnsUnseen, if_pos ⟨rfl, hdisabled⟩, hstack, List.head?_cons, Option.toList_some,
        List.flatMap_singleton]
      rw [hstack] at h
      exact h.returns

theorem Traced.step {jvm : Jvm} {s s' : Attached} {o : Occurrence} {t : Tid}
    {unseen : List (JmethodID × ArrayId)}
    (h : Traced unseen (s.agent.info t) (s.agent.stack t)) (hstep : s.step jvm o = some s') :
    Traced (unseen ++ returnsUnseen t s o) (s'.agent.info t) (s'.agent.stack t) := by
  rcases Attached.step_cases hstep t with ⟨event, rfl, rfl⟩ |
    ⟨l, rfl, _, ⟨_, hthread⟩ | ⟨hobserves, hinfo, hmoved⟩⟩
  · exact h.weaken _
  · exact (h.thread hthread).weaken _
  · rw [hinfo]
    exact h.unobserved hobserves hmoved

/-! ## The exits of the older calls -/

section

variable {jvm : Jvm} {s₁ s₂ : Attached} {ls₁ ls₂ : List Occurrence} {t : Tid} {a : Activation}
  {rest : List Frame}

theorem beforeEntries_of_run (h : run (Attached.step jvm) .initial ls₁ = some s₁) (t : Tid) :
    BeforeEntries t s₁ := by
  refine run_invariant (fun _ _ _ hbefore hstep => BeforeEntries.step hbefore hstep) ?_ h
  exact fun _ => ⟨rfl, fun _ hf => absurd hf List.not_mem_nil⟩

theorem traced_of_run {unseen : List (JmethodID × ArrayId)}
    (h : Traced unseen (s₁.agent.info t) (s₁.agent.stack t))
    (hrun : run (Attached.step jvm) s₁ ls₂ = some s₂) :
    Traced (unseen ++ emitted (Attached.step jvm) (returnsUnseen t) s₁ ls₂) (s₂.agent.info t)
      (s₂.agent.stack t) := by
  let inv : List (JmethodID × ArrayId) → Attached → Prop :=
    fun unseen s => Traced unseen (s.agent.info t) (s.agent.stack t)
  exact @run_history _ _ _ _ (returnsUnseen t) inv (fun _ _ _ _ hinv hstep => hinv.step hstep)
    ls₂ unseen s₁ s₂ h hrun

theorem Traced.forget {unseen : List (JmethodID × ArrayId)} {info : HookInvokingInfo}
    {stack : List Frame} (h : Traced unseen info stack) (hhooks : info.hooks = none) :
    Traced [] info stack :=
  ⟨h.flags, h.nested, h.calls,
    fun array harray => absurd (harray.symm.trans hhooks) (Option.some_ne_none array)⟩

theorem standsOn_of_run {older : List Frame} (hframes : ∀ f ∈ s₁.agent.stack t, Unannounced f)
    (holder : older <:+ s₁.agent.stack t) (hrun : run (Attached.step jvm) s₁ ls₂ = some s₂)
    (hstays : ∀ u o, Takes (Attached.step jvm) s₁ ls₂ u o →
      older.length ≤ (u.agent.stack t).length)
    (hend : older.length ≤ (s₂.agent.stack t).length) : StandsOn older (s₂.agent.stack t) := by
  let long : Attached → Prop := fun u => older.length ≤ (u.agent.stack t).length
  let inv : Attached → Prop := fun u => long u → StandsOn older (u.agent.stack t)
  have hquiet : ∀ f ∈ older, Unannounced f := fun f hf => hframes f (holder.subset hf)
  have hfirst : inv s₁ := fun _ => standsOn_of_suffix hframes holder
  refine @run_invariant_of_takes _ _ _ inv (fun u _ => long u) ?_ ls₂ s₁ s₂ hfirst hrun hstays hend
  intro u o u' hinv hlong hstep hlong'
  have hu := hinv hlong
  rcases Attached.step_cases hstep t with ⟨event, rfl, rfl⟩ |
    ⟨l, rfl, _, ⟨_, hthread⟩ | ⟨_, _, hmoved⟩⟩
  · exact hu
  · exact hu.thread hquiet hthread hlong'
  · exact hu.unobserved hmoved hlong'

/-- A thread in calls that were not announced runs no callback of a method. -/
theorem Traced.clear {unseen : List (JmethodID × ArrayId)} {info : HookInvokingInfo}
    {stack : List Frame} (h : Traced unseen info stack) (hframes : ∀ f ∈ stack, Unannounced f) :
    info.runningHook = false := by
  refine eq_false_of_ne_true fun hset => ?_
  have hmem : Guard.runningHook ∈ guards stack := (h.flags.set_iff .runningHook).mp hset
  obtain ⟨f, hf, hguard⟩ := mem_guards.mp hmem
  cases f with
  | methodEntry c => exact hframes _ hf
  | activation a => cases hguard
  | methodExit c => exact hframes _ hf
  | classPrepare => cases hguard

/-- Its record is empty or about another method, unless a call of the method has returned
unseen. -/
theorem Traced.foreign {unseen : List (JmethodID × ArrayId)} {info : HookInvokingInfo}
    {stack : List Frame} (h : Traced unseen info stack) (hframes : ∀ f ∈ stack, Unannounced f)
    {method : JmethodID}
    (hunseen : ∀ m array, (m, array) ∈ unseen → jvm.deref m ≠ jvm.deref method) :
    info.hooks = none ∨
      ∃ target, info.targetMethod = some target ∧ jvm.deref target ≠ jvm.deref method := by
  cases hhooks : info.hooks with
  | none => exact Or.inl rfl
  | some array =>
      rcases h.owner array hhooks with htop | ⟨m, hm, htarget⟩
      · obtain ⟨b, hmem, hbroadcast, _⟩ := htop.exists_mem
        have hnone : b.broadcast = none := hframes _ hmem
        exact absurd (hbroadcast.symm.trans hnone) (Option.some_ne_none array)
      · exact Or.inr ⟨m, htarget (h.clear hframes), hunseen m array hm⟩

/-- `onMethodExit` returns early for such a record. -/
theorem step_leave_of_foreign {s : State} (hstack : s.stack t = .activation a :: rest)
    (hforeign : (s.info t).hooks = none ∨ ∃ target, (s.info t).targetMethod = some target ∧
      jvm.deref target ≠ jvm.deref a.method) (popped : Bool) (value : Option Jvalue) :
    step jvm s (.leave t popped value) =
      some (s.setThread t
        { s.threads t with info := some (s.info t), frames := rest }) := by
  have hframes : (s.threads t).frames = .activation a :: rest := hstack
  unfold State.info at hforeign ⊢
  cases hhooks : (s.threads t).getHookInvokingInfo.hooks with
  | none => simp only [step, hframes, onMethodExit, hhooks]
  | some array =>
      rcases hforeign with hnone | ⟨target, htarget, hkey⟩
      · exact absurd (hhooks.symm.trans hnone) (Option.some_ne_none array)
      · simp only [step, hframes, onMethodExit, hhooks, htarget]
        rw [if_pos hkey]

end

/-- The exit of a call that is older than METHOD_ENTRY does nothing but take the call off the
stack (the thread gets its record if METHOD_EXIT is enabled), if between the two
calls of `SetEventNotificationMode` no call of the same method has returned on the thread
whose entry was broadcast. -/
theorem older_exits_pass (jvm : Jvm) {ls₁ ls₂ : List Occurrence} {s₁ s₂ : Attached} {t : Tid}
    {a : Activation} {rest : List Frame}
    (hbefore : run (Attached.step jvm) .initial ls₁ = some s₁)
    (hdisabled : s₁.enabled .methodEntry = false)
    (holder : .activation a :: rest <:+ s₁.agent.stack t)
    (hrun : run (Attached.step jvm) s₁ ls₂ = some s₂)
    (hstays : ∀ u o, Takes (Attached.step jvm) s₁ ls₂ u o →
      rest.length < (u.agent.stack t).length)
    (htop : (s₂.agent.stack t).length = rest.length + 1)
    (hunseen : ∀ m array, (m, array) ∈ emitted (Attached.step jvm) (returnsUnseen t) s₁ ls₂ →
      jvm.deref m ≠ jvm.deref a.method) (popped : Bool) (value : Option Jvalue) :
    s₂.step jvm (.machine (.leave t popped value)) = some { s₂ with
      agent := s₂.agent.setThread t { s₂.agent.threads t with
        info := if s₂.enabled .methodExit then some (s₂.agent.info t)
          else (s₂.agent.threads t).info
        frames := rest } } := by
  obtain ⟨hhooks, hframes⟩ := beforeEntries_of_run hbefore t hdisabled
  have hstack : s₂.agent.stack t = .activation a :: rest := by
    obtain ⟨above, heq, _⟩ := standsOn_of_run hframes holder hrun hstays (Nat.le_of_eq htop.symm)
    have hsuffix : .activation a :: rest <:+ s₂.agent.stack t := ⟨above, heq.symm⟩
    exact (hsuffix.eq_of_length htop.symm).symm
  have hquiet : ∀ f ∈ s₂.agent.stack t, Unannounced f := by
    rw [hstack]
    exact fun f hf => hframes f (holder.subset hf)
  have hattached : Traced [] (Attached.initial.agent.info t) (Attached.initial.agent.stack t) :=
    traced_empty
  have htraced := traced_of_run ((traced_of_run hattached hbefore).forget hhooks) hrun
  cases henabled : s₂.enabled .methodExit with
  | true =>
      have hobserves : s₂.observes (.leave t popped value) = true := henabled
      rw [Attached.step, if_pos hobserves,
        step_leave_of_foreign hstack (htraced.foreign hquiet hunseen), if_pos rfl]
      rfl
  | false =>
      have hobserves : s₂.observes (.leave t popped value) = false := henabled
      have hframes₂ : (s₂.agent.threads t).frames = .activation a :: rest := hstack
      rw [Attached.step, if_neg (hobserves ▸ Bool.false_ne_true), if_neg Bool.false_ne_true]
      simp only [unobserved, hframes₂, Option.map_some]

/-- `⟨1⟩` is running when `⟨2⟩` is hooked. -/
def olderRun : List Occurrence :=
  [.machine (.call 0 ⟨1⟩ fun _ => none), .enable .classPrepare,
    .machine (.register ⟨2⟩ (some ⟨5⟩))]

/-- It calls `⟨2⟩`, which is announced and returns unseen. -/
def unseenRun : List Occurrence :=
  [.enable .methodEntry, .machine (.call 0 ⟨2⟩ fun _ => none), .machine (.broadcast 0),
    .machine (.dispatch 0), .machine (.finish 0 false), .machine (.leave 0 false none),
    .enable .methodExit]

theorem older_exits_pass_unseenRun :
    ∃ s : Attached, (s.agent.info 0).hooks = some 0 ∧
      s.step .plain (.machine (.leave 0 false none)) = some { s with
        agent := s.agent.setThread 0
          { s.agent.threads 0 with info := some (s.agent.info 0), frames := [] } } := by
  let s₁ := (run (Attached.step .plain) .initial olderRun).get rfl
  let s₂ := (run (Attached.step .plain) s₁ unseenRun).get rfl
  have hbefore : run (Attached.step .plain) .initial olderRun = some s₁ := rfl
  have hrun : run (Attached.step .plain) s₁ unseenRun = some s₂ := rfl
  have holder : [.activation (entered ⟨1⟩ fun _ => none)] <:+ s₁.agent.stack 0 := ⟨[], rfl⟩
  have hstays : ∀ u o, Takes (Attached.step .plain) s₁ unseenRun u o →
      0 < (u.agent.stack 0).length := by
    refine forall_takes_cons rfl (by decide) ?_
    refine forall_takes_cons rfl (by decide) ?_
    refine forall_takes_cons rfl (by decide) ?_
    refine forall_takes_cons rfl (by decide) ?_
    refine forall_takes_cons rfl (by decide) ?_
    refine forall_takes_cons rfl (by decide) ?_
    refine forall_takes_cons rfl (by decide) ?_
    exact fun _ _ htakes => absurd htakes takes_nil
  have hunseen : ∀ m array,
      (m, array) ∈ emitted (Attached.step .plain) (returnsUnseen 0) s₁ unseenRun →
      Jvm.plain.deref m ≠ Jvm.plain.deref ⟨1⟩ := by
    intro m array hm
    have hlog : emitted (Attached.step .plain) (returnsUnseen 0) s₁ unseenRun = [(⟨2⟩, 0)] := rfl
    rw [hlog, List.mem_singleton] at hm
    obtain ⟨rfl, _⟩ := Prod.mk.inj hm
    decide
  exact ⟨s₂, rfl, older_exits_pass .plain hbefore rfl holder hrun hstays rfl hunseen false none⟩

/-- Had it been `⟨1⟩` itself that it calls, its own exit would be broadcast. -/
example : ((run (Attached.step .plain) .initial
    [.machine (.call 0 ⟨1⟩ fun _ => none), .machine (.register ⟨1⟩ (some ⟨5⟩)),
      .enable .methodEntry, .machine (.call 0 ⟨1⟩ fun _ => none), .machine (.broadcast 0),
      .machine (.dispatch 0), .machine (.finish 0 false), .machine (.leave 0 false none),
      .enable .methodExit, .machine (.leave 0 false none)]).map
    fun s => s.agent.running 0) = some [.exitingMethod] := rfl

end Startup

end JvmHookFramework
