/-
  Agent/View.lean --- the abstract agent in a state of the machine.

  A frame of the machine stands for a frame of the abstract agent: the array of a callback
  for the hooks in it, the handles for what they say.  What a frame stands for does not
  change while it is on a stack, whatever the other threads and the registry do.
-/
import JvmHookFramework.Agent.Model
import JvmHookFramework.Machine.Dispatch
import JvmHookFramework.Machine.Outcome

set_option autoImplicit false

namespace JvmHookFramework

open Foundation Foundation.SlotChain Foundation.GuardStack

/-! ## What the machine's data stand for -/

/-- The registered hooks, in the slots they are in. -/
def Registry.hooked (r : Registry) : List (Option Agent.Hooked) :=
  r.slots.map (Option.map fun reg => (reg.1, denote r.hookRefs reg.2))

/-- The hooks that were collected into an array. -/
def State.hooksIn (s : State) (a : ArrayId) : List (Option Obj) :=
  ((s.snapshot a).map fun m => m.array.cells.map (denote s.registry.hookRefs)).getD []

/-- `isException()` of a `JvmReturnValueImpl`. -/
def State.isException (s : State) (h : HandleId) : Bool :=
  match s.cls h with
  | some (.jvmReturnValueImpl _ isE) => isE
  | _ => false

def Frame.view (s : State) : Frame → Agent.Frame
  | .activation a => .method a.method
  | .methodEntry c => .entering ⟨c.call.metadata, s.hooksIn c.hookInstances⟩ c.loop
  | .methodExit c =>
      .exiting ⟨c.call.metadata, s.hooksIn c.pointer⟩ c.size c.i (s.isException c.retV)
        (s.returnValue c.callback).join
  | .classPrepare => .preparing

/-- What a record and a stack stand for. -/
def State.viewOf (s : State) (info : HookInvokingInfo) (stack : List Frame) (ended : Bool) :
    Agent.Thread where
  stack := stack.map (Frame.view s)
  target := info.targetMethod.map fun m => (m, info.hookCounts)
  pending := info.hooks.map s.hooksIn
  ended := ended

def State.view (s : State) (t : Tid) : Agent.Thread :=
  s.viewOf (s.info t) (s.stack t) (s.threads t).ended

def State.abstract (s : State) : Compound (List (Option Agent.Hooked)) Agent.Thread Tid where
  shared := s.registry.hooked
  part := s.view

/-! ## What the hooks are called with -/

/-- `valueOfPointer(pointer, i)`: the object in a cell, if the cell was written.  A reference
that has been deleted denotes what it did; `State.handed` tells it from a live one. -/
def State.valueOfPointer (s : State) (pointer : ArrayId) (i : Nat) : Option (Option Obj) :=
  ((s.snapshot pointer).bind fun m => m.array.cells[i]?).map (denote s.registry.hookRefs)

/-- What the step calls hooks with, under its thread: a broadcast loop calls the next one,
`onClassPrepare` broadcasts the class.  Dead references are taken to denote what they did;
`hookCalls` has what can be read. -/
def hookEvents (jvm : Jvm) (s : State) : Label → List (Tid × Agent.Event)
  | .dispatch t =>
      match s.stack t with
      | .methodEntry c :: _ =>
          match c.loop with
          | some i => [(t, .preInvoke c.call.metadata (s.valueOfPointer c.hookInstances i))]
          | none => []
      | .methodExit c :: _ =>
          [(t, .postInvoke c.call.metadata (s.valueOfPointer c.pointer c.i)
            (s.isException c.retV) (s.returnValue c.callback).join)]
      | _ => []
  | .prepare t klass =>
      if (s.stack t).length < ((onClassPrepare jvm s t klass).stack t).length then
        [(t, .classPrepare klass (jvm.GetClassLoader klass))]
      else []
  | _ => []

/-- The array and the object that a callback reads are there. -/
def Frame.Made (s : State) : Frame → Prop
  | .methodEntry c =>
      ∃ m, s.snapshot c.hookInstances = some m ∧ c.hookCount = m.array.cells.length
  | .methodExit c =>
      (∃ m, s.snapshot c.pointer = some m) ∧
        ∃ e isE v, s.cls c.retV = some (.jvmReturnValueImpl e isE) ∧
          s.returnValue c.callback = some v
  | .activation _ | .classPrepare => True

section

variable {jvm : Jvm} {s s' : State} {t u : Tid} {l : Label} {a : ArrayId} {m : Snapshot}

theorem State.hooksIn_of_snapshot (h : s.snapshot a = some m) :
    s.hooksIn a = m.array.cells.map (denote s.registry.hookRefs) := by
  rw [State.hooksIn, h, Option.map_some, Option.getD_some]

theorem State.valueOfPointer_eq (s : State) (a : ArrayId) (i : Nat) :
    s.valueOfPointer a i = (s.hooksIn a)[i]? := by
  unfold State.valueOfPointer State.hooksIn
  cases s.snapshot a with
  | none => rfl
  | some m => rw [Option.bind_some, Option.map_some, Option.getD_some, List.getElem?_map]

/-! ## References keep their objects -/

theorem Step.registry_of_thread (h : Step jvm s l s') (hthread : l.thread = some t) :
    s'.registry = s.registry := by
  cases h with
  | register | unregister | nativeInert | nativeLive => cases hthread
  | _ => rfl

/-- A hook reference denotes the same object after a step. -/
theorem Step.denote_hook (h : Step jvm s l s') {ref : Option Nat}
    (hcreated : ∀ r ∈ ref, r < s.registry.hookRefs.next) :
    denote s'.registry.hookRefs ref = denote s.registry.hookRefs ref := by
  cases h with
  | register method hook => exact denote_NewGlobalRef_of_lt hook hcreated
  | unregister hcompletes =>
      cases ref with
      | none => rfl
      | some r =>
          unfold denote
          rw [(unregisterHook_spec hcompletes).2.2, Option.bind_some, Option.bind_some,
            RefTable.get?_deleteAll]
  | _ => rfl

/-- The hooks in an array stay what they are. -/
theorem Step.hooksIn (h : Step jvm s l s') (hcells : CellsOk jvm s) (ha : s.snapshot a = some m) :
    s'.hooksIn a = s.hooksIn a := by
  rw [State.hooksIn_of_snapshot ha, State.hooksIn_of_snapshot (h.snapshot ha)]
  refine List.map_congr_left fun ref href => h.denote_hook fun r hr => ?_
  rw [Option.mem_def.mp hr] at href
  exact (hcells.tracked a m ha r href).created

/-! ## Frames keep what they stand for -/

theorem Frame.Made.step {f : Frame} (hmade : f.Made s) (h : Step jvm s l s') : f.Made s' := by
  cases f with
  | activation a => trivial
  | classPrepare => trivial
  | methodEntry c =>
      obtain ⟨m, hm, hcount⟩ := hmade
      exact ⟨m, h.snapshot hm, hcount⟩
  | methodExit c =>
      obtain ⟨⟨m, hm⟩, e, isE, v, hcls, hvalue⟩ := hmade
      exact ⟨⟨m, h.snapshot hm⟩, e, isE, v, h.cls hcls, h.returnValue hvalue⟩

theorem Frame.Made.view {f : Frame} (hmade : f.Made s) (h : Step jvm s l s')
    (hcells : CellsOk jvm s) : f.view s' = f.view s := by
  cases f with
  | activation a => rfl
  | classPrepare => rfl
  | methodEntry c =>
      obtain ⟨m, hm, _⟩ := hmade
      simp only [Frame.view, h.hooksIn hcells hm]
  | methodExit c =>
      obtain ⟨⟨m, hm⟩, e, isE, v, hcls, hvalue⟩ := hmade
      simp only [Frame.view, State.isException, h.hooksIn hcells hm, h.cls hcls,
        h.returnValue hvalue, hcls, hvalue]

/-- An exit callback on a stack was there before the step, its loop apart, or the step has
begun it. -/
theorem ThreadStep.mem_methodExit {info : HookInvokingInfo} {stack : List Frame} {c : ExitCall}
    (hthread : ThreadStep jvm s t l info stack) (hc : .methodExit c ∈ stack) :
    (∃ c', .methodExit c' ∈ s.stack t ∧ c = { c' with i := c.i }) ∨
      stack = .methodExit c :: s.stack t := by
  have hkept : .methodExit c ∈ s.stack t →
      ∃ c', .methodExit c' ∈ s.stack t ∧ c = { c' with i := c.i } :=
    fun hmem => ⟨c, hmem, rfl⟩
  cases hthread with
  | idle => exact Or.inl (hkept hc)
  | ended => cases hc
  | called => exact Or.inl (hkept (by simpa using hc))
  | entryBegins => exact Or.inl (hkept (by simpa using hc))
  | left hstack =>
      refine Or.inl (hkept ?_)
      rw [hstack]
      exact List.mem_cons_of_mem _ hc
  | exitBegins hstack =>
      rcases List.mem_cons.mp hc with heq | hold
      · obtain rfl := Frame.methodExit.inj heq
        exact Or.inr (by rw [hstack])
      · exact Or.inl (hkept (hstack ▸ hold))
  | prepareBegins => exact Or.inl (hkept (by simpa using hc))
  | entryLoops hstack =>
      refine Or.inl (hkept ?_)
      rw [hstack]
      simpa using hc
  | @exitLoops l d rest i hstack =>
      rcases List.mem_cons.mp hc with heq | hold
      · obtain rfl := Frame.methodExit.inj heq
        exact Or.inl ⟨d, hstack ▸ List.mem_cons_self, rfl⟩
      · exact Or.inl (hkept (hstack ▸ List.mem_cons_of_mem _ hold))
  | entryEnds hstack =>
      refine Or.inl (hkept ?_)
      rw [hstack]
      exact List.mem_cons_of_mem _ (by simpa using hc)
  | exitEnds hstack =>
      refine Or.inl (hkept ?_)
      rw [hstack]
      exact List.mem_cons_of_mem _ (List.mem_cons_of_mem _ hc)
  | prepareEnds hstack =>
      refine Or.inl (hkept ?_)
      rw [hstack]
      exact List.mem_cons_of_mem _ hc

/-- The same rule as for entry callbacks. -/
theorem methodExit_invariant {p : State → ExitCall → Prop}
    (hkeeps : ∀ {s s' : State} {l : Label} {c : ExitCall} (i : Nat),
      Step jvm s l s' → p s c → p s' { c with i := i })
    (hbegins : ∀ {s s' : State} {t : Tid} {l : Label} {c : ExitCall},
      step jvm s l = some s' → s'.stack t = .methodExit c :: s.stack t → p s' c)
    (hreachable : Reachable (step jvm) initialState s) (t : Tid) :
    ∀ c, .methodExit c ∈ s.stack t → p s c := by
  let inv : State → Prop := fun s => ∀ c, .methodExit c ∈ s.stack t → p s c
  have hinit : inv initialState := fun c hc => absurd hc List.not_mem_nil
  refine @reachable_invariant _ _ _ inv _ _ hinit ?_ hreachable
  intro s l s' hinv hstep c hc
  have hcases := step_cases hstep
  rcases (hcases.thread t).mem_methodExit hc with ⟨c', hc', hsame⟩ | hstack
  · rw [hsame]
    exact hkeeps c.i hcases (hinv c' hc')
  · exact hbegins hstep hstack

/-- The object for the outcome of an exit callback, and the outcome. -/
def ExitCall.HasOutcome (s : State) (c : ExitCall) : Prop :=
  ∃ e isE v, s.cls c.retV = some (.jvmReturnValueImpl e isE) ∧ s.returnValue c.callback = some v

theorem hasOutcome_of_reachable (hreachable : Reachable (step jvm) initialState s) (t : Tid) :
    ∀ c, .methodExit c ∈ s.stack t → c.HasOutcome s := by
  refine methodExit_invariant (fun _ hstep hc => ?_) (fun {s s' t l c} hstep hstack => ?_)
    hreachable t
  · obtain ⟨e, isE, v, hcls, hvalue⟩ := hc
    exact ⟨e, isE, v, hstep.cls hcls, hstep.returnValue hvalue⟩
  · obtain ⟨popped, value, a, rest, rfl, hstack₁, hpasses, _⟩ :=
      ((step_cases hstep).thread t).exit_begins hstack
    obtain ⟨e, he, hcls, hvalue⟩ :=
      onMethodExit.outcome_begin jvm s t a rest c.pointer popped value
    have hbegin := (hpasses.step_leave hstack₁ popped value).symm.trans hstep
    rw [Option.some.inj hbegin] at he hcls hvalue
    obtain rfl := Frame.methodExit.inj (List.cons.inj (he.symm.trans hstack)).1
    exact ⟨none, popped, value, hcls, hvalue⟩

/-- The array of an entry callback holds as many hooks as the callback counts. -/
def EntryCall.Counts (s : State) (c : EntryCall) : Prop :=
  ∃ m, s.snapshot c.hookInstances = some m ∧ c.hookCount = m.array.cells.length

theorem Step.counts {method : JmethodID} {frame : Locals} {c : EntryCall} {rest : List Frame}
    (hstep : Step jvm s (.call t method frame) s') (hpasses : EntryPasses jvm s t method)
    (hstack : s'.stack t = .methodEntry c :: rest) : c.Counts s' := by
  have hsnapshot := hstep.snapshot_call hpasses.1
  cases hstep with
  | callUnhooked halive hnone => exact absurd hnone hpasses.1
  | callSuppressed halive hsome hguard => exact absurd hguard hpasses.2
  | callBroadcast halive hpasses hread =>
      unfold onMethodEntry.begin at hstack
      rw [State.stack_setThread_self] at hstack
      obtain rfl := Frame.methodEntry.inj (List.cons.inj hstack).1
      exact ⟨_, hsnapshot, rfl⟩

theorem counts_of_reachable (hreachable : Reachable (step jvm) initialState s) (t : Tid) :
    ∀ c, .methodEntry c ∈ s.stack t → c.Counts s :=
  methodEntry_invariant
    (fun _ hstep hc => by
      obtain ⟨m, hm, hcount⟩ := hc
      exact ⟨m, hstep.snapshot hm, hcount⟩)
    (fun hstep hpasses hstack => hstep.counts hpasses hstack) hreachable t

/-- A record with an array has a target. -/
theorem target_of_hooks (hreachable : Reachable (step jvm) initialState s) (t : Tid)
    (ha : (s.info t).hooks = some a) : ∃ target, (s.info t).targetMethod = some target := by
  have hrecord := recordOk_of_reachable hreachable t
  cases hrunning : (s.info t).runningHook with
  | false =>
      obtain ⟨_, m, _, htarget, _⟩ := hrecord.outside hrunning a ha
      exact ⟨_, htarget⟩
  | true =>
      obtain ⟨f, hf, hguard⟩ :=
        mem_guards.mp (((guarded_of_reachable hreachable t).set_iff .runningHook).mp hrunning)
      cases f with
      | activation | methodExit | classPrepare => cases hguard
      | methodEntry c =>
          obtain ⟨⟨_, m, _, htarget, _⟩, _⟩ :=
            hrecord.inside c.hookInstances (List.mem_filterMap.mpr ⟨_, hf, rfl⟩)
          exact ⟨_, htarget⟩

theorem made_of_reachable (hreachable : Reachable (step jvm) initialState s) (t : Tid) :
    ∀ f ∈ s.stack t, f.Made s := by
  intro f hf
  cases f with
  | activation a => trivial
  | classPrepare => trivial
  | methodEntry c => exact counts_of_reachable hreachable t c hf
  | methodExit c =>
      have hhooks := exitPointers_of_reachable hreachable t c hf
      exact ⟨(recordOk_of_reachable hreachable t).allocated _ hhooks,
        hasOutcome_of_reachable hreachable t c hf⟩

end

end JvmHookFramework
