/-
  Agent/Delivery.lean --- hooks are called in rounds.

  An announcement on a thread is a round: it starts with the hooks that are to be called,
  calls them one after the other, and stops after the last one or when a hook throws.  On
  one thread the rounds of calls do not overlap, nor do those of exits, whatever else runs
  on the thread in between.  So the hooks of a call are called exactly once each, in the
  order of the chain, up to the first that throws, and no hook is called out of a round.  A
  hook that is unregistered while its round runs keeps its place in it, with a dead reference.
-/
import JvmHookFramework.Agent.Calls
import JvmHookFramework.Agent.Move
import JvmHookFramework.Foundation.Rounds

set_option autoImplicit false

namespace JvmHookFramework

open Foundation Foundation.SlotChain

namespace Agent

/-! ## The rounds of the abstract agent -/

def Event.isPreInvoke : Event → Bool
  | .preInvoke _ _ => true
  | .postInvoke _ _ _ _ | .classPrepare _ _ => false

def Event.isPostInvoke : Event → Bool
  | .postInvoke _ _ _ _ => true
  | .preInvoke _ _ | .classPrepare _ _ => false

/-- The hooks of a call, each to be called once. -/
def Announcement.calls (r : Announcement) : List Event :=
  r.hooks.map fun hook => .preInvoke r.about (some hook)

/-- What an exit that is announced `count` times calls. -/
def Announcement.exits (r : Announcement) (count : Nat) (popped : Bool)
    (value : Option Jvalue) : List Event :=
  (List.range count).map fun i => .postInvoke r.about r.hooks[i]? popped value

def Frame.entryRound : Frame → Option (List Event × Nat)
  | .entering r next => some (r.calls, next.getD 0)
  | _ => none

def Frame.exitRound : Frame → Option (List Event × Nat)
  | .exiting r count i popped value => some (r.exits count popped value, i)
  | _ => none

section

variable (jvm : Jvm) (chain : List (Option Hooked)) (th : Thread)

def Thread.entryLog : Label → List (Entry Event)
  | .call _ m _ =>
      if th.announces jvm chain m then
        [.start (Announcement.calls ⟨jvm.metadata m, hooksOf jvm chain m⟩)]
      else []
  | .dispatch _ =>
      match th.stack with
      | .entering r (some i) :: _ => [.serve (.preInvoke r.about r.hooks[i]?)]
      | _ => []
  | .finish _ threw =>
      match th.stack with
      | .entering _ _ :: _ => [.stop threw]
      | _ => []
  | _ => []

def Thread.exitLog : Label → List (Entry Event)
  | .leave _ popped value =>
      match th.stack, th.pending, th.target with
      | .method m :: _, some hooks, some (target, count) =>
          if jvm.deref target = jvm.deref m && !th.stack.any Frame.isExiting then
            [.start (Announcement.exits ⟨exitMetadata jvm m target, hooks⟩ count popped value)]
          else []
      | _, _, _ => []
  | .dispatch _ =>
      match th.stack with
      | .exiting r _ i popped value :: _ => [.serve (.postInvoke r.about r.hooks[i]? popped value)]
      | _ => []
  | .finish _ threw =>
      match th.stack with
      | .exiting .. :: _ => [.stop threw]
      | _ => []
  | _ => []

end

section

variable {jvm : Jvm} {chain : List (Option Hooked)} {th th' : Thread} {l : Label}

theorem findSome?_eq_none {q : Frame → Bool} {pick : Frame → Option (List Event × Nat)}
    (hpick : ∀ f, q f = false → pick f = none) {frames : List Frame}
    (h : frames.any q = false) : frames.findSome? pick = none := by
  rw [List.findSome?_eq_none_iff]
  intro f hf
  rw [List.any_eq_false] at h
  exact hpick f (eq_false_of_ne_true (h f hf))

theorem entryRound_eq_none {frames : List Frame} (h : frames.any Frame.isEntering = false) :
    frames.findSome? Frame.entryRound = none := by
  refine findSome?_eq_none (fun f hf => ?_) h
  cases f <;> first | rfl | cases hf

theorem exitRound_eq_none {frames : List Frame} (h : frames.any Frame.isExiting = false) :
    frames.findSome? Frame.exitRound = none := by
  refine findSome?_eq_none (fun f hf => ?_) h
  cases f <;> first | rfl | cases hf

/-- Calls are announced in rounds. -/
theorem Move.serves_entry (hok : th.Ok) (hmove : Move jvm chain th l th') :
    Serves (th.stack.findSome? Frame.entryRound) (th.entryLog jvm chain l)
      (th'.stack.findSome? Frame.entryRound) := by
  have hgrounded := hok.grounded
  cases hmove with
  | called halive hquiet =>
      simp only [Thread.entryLog, hquiet, Bool.false_eq_true, if_false]
      exact .idle
  | @callAnnounced t m frame halive hannounces =>
      have hnone := entryRound_eq_none (Thread.quiet_of_announces hannounces).1
      simp only [Thread.entryLog, hannounces, if_true, hnone]
      exact .start _
  | left hstack | exitAnnounced hstack =>
      rw [hstack]
      exact .idle
  | prepared | classAnnounced => exact .idle
  | starts hstack =>
      rw [hstack]
      exact .idle
  | @entryCalls t r i rest hstack hlt =>
      simp only [Thread.entryLog, hstack]
      refine .serve (i := i) ?_
      simp [Announcement.calls, hlt]
  | exitCalls hstack =>
      simp only [Thread.entryLog, hstack]
      exact .idle
  | @entryEnds t threw r i m rest hstack hend =>
      rw [hstack] at hgrounded
      have hnone := entryRound_eq_none hgrounded.1.2.2.1
      simp only [Thread.entryLog, hstack, hnone]
      refine .stop (i := i) ?_
      rwa [Announcement.calls, List.length_map]
  | exitEnds hstack =>
      simp only [Thread.entryLog, hstack]
      exact .idle
  | prepareEnds hstack =>
      simp only [Thread.entryLog, hstack]
      exact .idle
  | ended hstack =>
      rw [hstack]
      exact .idle

/-- So are exits. -/
theorem Move.serves_exit (hok : th.Ok) (hmove : Move jvm chain th l th') :
    Serves (th.stack.findSome? Frame.exitRound) (th.exitLog jvm l)
      (th'.stack.findSome? Frame.exitRound) := by
  have hgrounded := hok.grounded
  cases hmove with
  | called | callAnnounced | prepared | classAnnounced => exact .idle
  | @left t popped value m rest hstack hquiet =>
      have hlog : th.exitLog jvm (.leave t popped value) = [] := by
        simp only [Thread.exitLog]
        split
        · rename_i hooks target count hmethod hpending htarget
          obtain rfl := Frame.method.inj (List.cons.inj (hmethod.symm.trans hstack)).1
          refine if_neg fun hguard => ?_
          rw [Bool.and_eq_true, decide_eq_true_eq, Bool.not_eq_true'] at hguard
          exact Bool.false_ne_true
            (hguard.2.symm.trans (hquiet hooks target count hpending htarget hguard.1))
        · rfl
      rw [hlog, hstack]
      exact .idle
  | @exitAnnounced t popped value m target rest hooks count hstack hpending htarget hkey hquiet =>
      have hnone := exitRound_eq_none hquiet
      have hlog : th.exitLog jvm (.leave t popped value) =
          [.start (Announcement.exits ⟨exitMetadata jvm m target, hooks⟩ count popped value)] := by
        have hguard : (jvm.deref target = jvm.deref m && !th.stack.any Frame.isExiting) = true := by
          simp [hkey, hquiet]
        simp only [Thread.exitLog]
        simp only [hstack, hpending, htarget]
        exact if_pos (hstack ▸ hguard)
      rw [hlog, hnone]
      exact .start _
  | starts hstack =>
      rw [hstack]
      exact .idle
  | entryCalls hstack =>
      simp only [Thread.exitLog, hstack]
      exact .idle
  | @exitCalls t r count i popped value rest hstack hlt =>
      simp only [Thread.exitLog, hstack]
      refine .serve (i := i) ?_
      simp [Announcement.exits, hlt]
  | entryEnds hstack =>
      simp only [Thread.exitLog, hstack]
      exact .idle
  | @exitEnds t threw r count i popped value m rest hstack hend =>
      rw [hstack] at hgrounded
      have hnone : rest.findSome? Frame.exitRound = none :=
        exitRound_eq_none (Bool.or_eq_false_iff.mp hgrounded.1.2.2).2
      simp only [Thread.exitLog, hstack, hnone]
      refine .stop (i := i) ?_
      rwa [Announcement.exits, List.length_map, List.length_range]
  | prepareEnds hstack =>
      simp only [Thread.exitLog, hstack]
      exact .idle
  | ended hstack =>
      rw [hstack]
      exact .idle

end

/-- The agent, with another log. -/
def logging (jvm : Jvm) (log : List (Option Hooked) → Thread → Label → List (Entry Event)) :
    Parts (List (Option Hooked)) Thread Tid Label (Entry Event) where
  owner := Label.thread
  change := change jvm
  move chain th := th.move jvm chain
  emit := log

theorem inRounds_of_run {jvm : Jvm} {pick : Frame → Option (List Event × Nat)}
    {log : List (Option Hooked) → Thread → Label → List (Entry Event)}
    (hserves : ∀ chain th l th', th.Ok → Move jvm chain th l th' →
      Serves (th.stack.findSome? pick) (log chain th l) (th'.stack.findSome? pick))
    {ls : List Label} {s : Compound (List (Option Hooked)) Thread Tid}
    (hrun : run (logging jvm log).step initial ls = some s) (t : Tid) :
    ∃ rounds, InRounds (Parts.ofPart t
      (emitted (logging jvm log).step (logging jvm log).events initial ls)) rounds := by
  let inv : List (Entry Event) → Thread → Prop := fun log th =>
    th.Ok ∧ ∃ rounds, Running log (th.stack.findSome? pick) rounds
  have hinit : inv [] (initial.part t) :=
    ⟨Thread.ok_of_empty rfl rfl, [], running_nil⟩
  have hinv := @Parts.part_history _ _ _ _ _ _ (logging jvm log) _ t inv initial ls ?_ hinit hrun
  · obtain ⟨_, rounds, hrunning⟩ := hinv
    exact ⟨_, hrunning.inRounds⟩
  · rintro log' chain th l th' ⟨hok, rounds, hrunning⟩ hmove
    have hcases := move_cases hmove
    exact ⟨hok.move hcases, hrunning.serves (hserves chain th l th' hok hcases)⟩

end Agent

/-! ## The rounds of the machine -/

instance (jvm : Jvm) (s : State) (t : Tid) (m : JmethodID) : Decidable (EntryPasses jvm s t m) :=
  inferInstanceAs (Decidable (_ ∧ ¬ (_ ∨ _ ∨ _)))

/-- The calls, broadcasts and returns of `onMethodEntry`: what it collects for a call that
passes its guards, whose turn it is in the loop, and how the broadcast ends. -/
def entryLog (jvm : Jvm) (s : State) : Label → List (Tid × Entry Agent.Event)
  | .call t m _ =>
      if EntryPasses jvm s t m then
        [(t, .start ((s.registry.hooksOf jvm m).map fun ref =>
          .preInvoke (jvm.metadata m) (some (denote s.registry.hookRefs ref))))]
      else []
  | .dispatch t =>
      match s.stack t with
      | .methodEntry _ :: _ => (hookEvents jvm s (.dispatch t)).map fun e => (e.1, .serve e.2)
      | _ => []
  | .finish t threw =>
      match s.stack t with
      | .methodEntry _ :: _ => [(t, .stop threw)]
      | _ => []
  | _ => []

/-- The array that `onMethodExit` broadcasts, when it passes its guards. -/
def exitHooks (jvm : Jvm) (info : HookInvokingInfo) (m : JmethodID) : Option ArrayId :=
  match info.hooks, info.targetMethod with
  | some array, some target =>
      if jvm.deref target = jvm.deref m ∧ info.exitingMethod = false then some array else none
  | _, _ => none

/-- The same for `onMethodExit`, which calls as many hooks as the record counts. -/
def exitLog (jvm : Jvm) (s : State) : Label → List (Tid × Entry Agent.Event)
  | .leave t popped value =>
      match s.stack t with
      | .activation a :: _ =>
          match exitHooks jvm (s.info t) a.method with
          | some array =>
              [(t, .start ((List.range (s.info t).hookCounts).map fun i =>
                .postInvoke ((s.info t).metadata (jvm.GetMethodDeclaringClass a.method))
                  (s.valueOfPointer array i) popped value))]
          | none => []
      | _ => []
  | .dispatch t =>
      match s.stack t with
      | .methodExit _ :: _ => (hookEvents jvm s (.dispatch t)).map fun e => (e.1, .serve e.2)
      | _ => []
  | .finish t threw =>
      match s.stack t with
      | .methodExit _ :: _ => [(t, .stop threw)]
      | _ => []
  | _ => []

section

variable {jvm : Jvm} {s s' : State} {t : Tid} {l : Label}

theorem entryLog_eq (hreachable : Reachable (step jvm) initialState s) (l : Label) :
    entryLog jvm s l =
      (Agent.logging jvm fun chain th l => th.entryLog jvm chain l).events s.abstract l := by
  unfold Parts.events
  cases l with
  | register | unregister | native | leave | prepare | broadcast | threadEnd => rfl
  | call t m frame =>
      have hannounces_iff := @State.announces_iff jvm s t (guarded_of_reachable hreachable t) m
      simp only [entryLog, Agent.logging, Label.thread, Agent.Thread.entryLog, State.abstract,
        hannounces_iff, Agent.Announcement.calls, Registry.hooksOf_hooked, List.map_map]
      split <;> rfl
  | dispatch t =>
      simp only [entryLog, hookEvents, Agent.logging, Label.thread, Agent.Thread.entryLog,
        State.abstract]
      rcases hstack : s.stack t with _ | ⟨_ | c | c | _, rest⟩
      · simp only [State.stack_view hstack, List.map_nil]
      · simp only [State.stack_view hstack, List.map_cons, Frame.view, List.map_nil]
      · cases hloop : c.loop with
        | none =>
            simp only [State.stack_view hstack, List.map_cons, Frame.view, hloop, List.map_nil]
        | some i =>
            simp only [State.stack_view hstack, List.map_cons, Frame.view, hloop,
              State.valueOfPointer_eq, List.map_nil]
      · simp only [State.stack_view hstack, List.map_cons, Frame.view, List.map_nil]
      · simp only [State.stack_view hstack, List.map_cons, Frame.view, List.map_nil]
  | finish t threw =>
      simp only [entryLog, Agent.logging, Label.thread, Agent.Thread.entryLog, State.abstract]
      rcases hstack : s.stack t with _ | ⟨_ | c | c | _, rest⟩ <;>
        simp only [State.stack_view hstack, List.map_cons, Frame.view, List.map_nil]

/-- The exit of `a` is announced as the abstract agent announces it. -/
theorem exitLog_leave (hreachable : Reachable (step jvm) initialState s) {a : Activation}
    {rest : List Frame} (hstack : s.stack t = .activation a :: rest) (popped : Bool)
    (value : Option Jvalue) :
    exitLog jvm s (.leave t popped value) =
      ((s.view t).exitLog jvm (.leave t popped value)).map fun e => (t, e) := by
  have hexiting := State.any_isExiting (guarded_of_reachable hreachable t)
  simp only [exitLog, exitHooks, hstack]
  cases hhooks : (s.info t).hooks with
  | none =>
      have hpending : (s.view t).pending = none := congrArg (Option.map s.hooksIn) hhooks
      simp only [Agent.Thread.exitLog, State.stack_view hstack, List.map_cons, Frame.view, hpending,
        List.map_nil]
  | some array =>
      obtain ⟨target, htarget⟩ := target_of_hooks hreachable t hhooks
      have hpending : (s.view t).pending = some (s.hooksIn array) :=
        congrArg (Option.map s.hooksIn) hhooks
      have htarget' : (s.view t).target = some (target, (s.info t).hookCounts) :=
        congrArg (Option.map fun m => (m, (s.info t).hookCounts)) htarget
      have habout := @exit_metadata jvm s t hreachable target htarget a.method
      simp only [Agent.Thread.exitLog, hpending, htarget', hexiting, htarget]
      simp only [State.stack_view hstack, List.map_cons, Frame.view]
      by_cases hguard : jvm.deref target = jvm.deref a.method ∧ (s.info t).exitingMethod = false
      · rw [if_pos hguard, if_pos (by simpa using hguard), ← habout]
        simp only [Agent.Announcement.exits, State.valueOfPointer_eq, List.map_cons, List.map_nil]
      · rw [if_neg hguard, if_neg (by simpa using hguard)]
        rfl

theorem exitLog_eq (hreachable : Reachable (step jvm) initialState s) (l : Label) :
    exitLog jvm s l = (Agent.logging jvm fun _ th l => th.exitLog jvm l).events s.abstract l := by
  unfold Parts.events
  cases l with
  | register | unregister | native | call | prepare | broadcast | threadEnd => rfl
  | leave t popped value =>
      simp only [exitLog, Agent.logging, Label.thread, Agent.Thread.exitLog, State.abstract]
      rcases hstack : s.stack t with _ | ⟨a | c | c | _, rest⟩
      · simp only [State.stack_view hstack, List.map_nil]
      · have hleave := @exitLog_leave jvm s t hreachable a rest hstack popped value
        simpa only [exitLog, hstack, Agent.Thread.exitLog] using hleave
      · simp only [State.stack_view hstack, List.map_cons, Frame.view, List.map_nil]
      · simp only [State.stack_view hstack, List.map_cons, Frame.view, List.map_nil]
      · simp only [State.stack_view hstack, List.map_cons, Frame.view, List.map_nil]
  | dispatch t =>
      simp only [exitLog, hookEvents, Agent.logging, Label.thread, Agent.Thread.exitLog,
        State.abstract]
      rcases hstack : s.stack t with _ | ⟨_ | c | c | _, rest⟩ <;>
        simp only [State.stack_view hstack, List.map_cons, Frame.view, State.valueOfPointer_eq,
          List.map_nil]
  | finish t threw =>
      simp only [exitLog, Agent.logging, Label.thread, Agent.Thread.exitLog, State.abstract]
      rcases hstack : s.stack t with _ | ⟨_ | c | c | _, rest⟩ <;>
        simp only [State.stack_view hstack, List.map_cons, Frame.view, List.map_nil]

/-- A log of the machine that is one of the agent. -/
theorem machine_logs (jvm : Jvm) {log : State → Label → List (Tid × Entry Agent.Event)}
    {agentLog : List (Option Agent.Hooked) → Agent.Thread → Label → List (Entry Agent.Event)}
    (hlog : ∀ s l, Reachable (step jvm) initialState s →
      log s l = (Agent.logging jvm agentLog).events s.abstract l) :
    Simulates (step jvm) log (Agent.logging jvm agentLog).step
      (Agent.logging jvm agentLog).events
      fun s a => Reachable (step jvm) initialState s ∧ a = s.abstract where
  steps := by
    rintro s s' _ l ⟨hreachable, rfl⟩ hstep
    exact ⟨_, step_refines hreachable hstep, hreachable.tail hstep, rfl⟩
  emits := by
    rintro s s' _ l ⟨hreachable, rfl⟩ _
    exact hlog s l hreachable

/-! ## What the rounds serve -/

theorem HookCall.Hears.isPreInvoke {call : HookCall} {e : Agent.Event} (h : call.Hears e) :
    call.isPreInvoke = true ↔ e.isPreInvoke = true := by
  cases call <;> cases e <;> first | exact Iff.rfl | exact h.elim

theorem HookCall.Hears.isPostInvoke {call : HookCall} {e : Agent.Event} (h : call.Hears e) :
    call.isPostInvoke = true ↔ e.isPostInvoke = true := by
  cases call <;> cases e <;> first | exact Iff.rfl | exact h.elim

/-- What is served in a log is what the hooks are called with. -/
theorem served_eq_filter {log : State → Label → List (Tid × Entry Agent.Event)}
    {q : Agent.Event → Bool}
    (hlog : ∀ s l, (Parts.ofPart t (log s l)).filterMap Entry.served? =
      (Parts.ofPart t (hookEvents jvm s l)).filter q) (s : State) (ls : List Label) :
    (Parts.ofPart t (emitted (step jvm) log s ls)).filterMap Entry.served? =
      (Parts.ofPart t (emitted (step jvm) (hookEvents jvm) s ls)).filter q := by
  let served : List (Tid × Entry Agent.Event) → List Agent.Event := fun log =>
    (Parts.ofPart t log).filterMap Entry.served?
  let called : List (Tid × Agent.Event) → List Agent.Event := fun log =>
    (Parts.ofPart t log).filter q
  refine @emitted_congr _ _ _ (step jvm) _ _ _ _ served called rfl ?_ hlog s ls
  intro xs ys xs' ys' hxs hys
  unfold served called at hxs hys ⊢
  rw [Parts.ofPart_append, Parts.ofPart_append, List.filterMap_append, List.filter_append, hxs, hys]

theorem entryLog_served (jvm : Jvm) (t : Tid) (s : State) (l : Label) :
    (Parts.ofPart t (entryLog jvm s l)).filterMap Entry.served? =
      (Parts.ofPart t (hookEvents jvm s l)).filter Agent.Event.isPreInvoke := by
  cases l with
  | register | unregister | native | leave | broadcast | threadEnd => rfl
  | call u m frame =>
      simp only [entryLog, hookEvents]
      split <;> by_cases hu : u = t <;> simp [Parts.ofPart, hu, Entry.served?]
  | prepare u klass =>
      simp only [entryLog, hookEvents]
      split <;> by_cases hu : u = t <;> simp [Parts.ofPart, hu, Agent.Event.isPreInvoke]
  | finish u threw =>
      simp only [entryLog, hookEvents]
      split <;> by_cases hu : u = t <;> simp [Parts.ofPart, hu, Entry.served?]
  | dispatch u =>
      simp only [entryLog, hookEvents]
      rcases s.stack u with _ | ⟨_ | c | c | _, rest⟩
      · rfl
      · rfl
      · cases hloop : c.loop <;> by_cases hu : u = t <;>
          simp [Parts.ofPart, hloop, hu, Entry.served?, List.filter_cons, Agent.Event.isPreInvoke]
      · by_cases hu : u = t <;> simp [Parts.ofPart, hu, Agent.Event.isPreInvoke]
      · rfl

theorem exitLog_served (jvm : Jvm) (t : Tid) (s : State) (l : Label) :
    (Parts.ofPart t (exitLog jvm s l)).filterMap Entry.served? =
      (Parts.ofPart t (hookEvents jvm s l)).filter Agent.Event.isPostInvoke := by
  cases l with
  | register | unregister | native | call | broadcast | threadEnd => rfl
  | leave u popped value =>
      simp only [exitLog, hookEvents]
      split
      · split <;> by_cases hu : u = t <;> simp [Parts.ofPart, hu, Entry.served?]
      · rfl
  | prepare u klass =>
      simp only [exitLog, hookEvents]
      split <;> by_cases hu : u = t <;> simp [Parts.ofPart, hu, Agent.Event.isPostInvoke]
  | finish u threw =>
      simp only [exitLog, hookEvents]
      split <;> by_cases hu : u = t <;> simp [Parts.ofPart, hu, Entry.served?]
  | dispatch u =>
      simp only [exitLog, hookEvents]
      rcases s.stack u with _ | ⟨_ | c | c | _, rest⟩
      · rfl
      · rfl
      · cases hloop : c.loop <;> by_cases hu : u = t <;>
          simp [Parts.ofPart, hloop, hu, Agent.Event.isPostInvoke]
      · by_cases hu : u = t <;>
          simp [Parts.ofPart, hu, Entry.served?, List.filter_cons, Agent.Event.isPostInvoke]
      · rfl

/-- The rounds of a log on one thread, what they serve, and what the hooks are called with. -/
theorem rounds_of_logs {log : State → Label → List (Tid × Entry Agent.Event)}
    {agentLog : List (Option Agent.Hooked) → Agent.Thread → Label → List (Entry Agent.Event)}
    {pick : Agent.Frame → Option (List Agent.Event × Nat)} {q : Agent.Event → Bool}
    {heard : HookCall → Bool}
    (hlog : ∀ s l, Reachable (step jvm) initialState s →
      log s l = (Agent.logging jvm agentLog).events s.abstract l)
    (hserves : ∀ chain th l th', th.Ok → Agent.Move jvm chain th l th' →
      Serves (th.stack.findSome? pick) (agentLog chain th l) (th'.stack.findSome? pick))
    (hserved : ∀ s l, (Parts.ofPart t (log s l)).filterMap Entry.served? =
      (Parts.ofPart t (hookEvents jvm s l)).filter q)
    (hheard : ∀ call e, HookCall.Hears call e → (heard call = true ↔ q e = true))
    {ls : List Label} (hrun : run (step jvm) initialState ls = some s) :
    ∃ rounds, InRounds (Parts.ofPart t (emitted (step jvm) log initialState ls)) rounds ∧
      (Parts.ofPart t (emitted (step jvm) (hookEvents jvm) initialState ls)).filter q =
        rounds.flatMap Round.delivered ∧
      (∀ r ∈ rounds, r.stopped = some false → r.delivered = r.items) ∧
      List.Forall₂ HookCall.Hears
        ((Parts.ofPart t (emitted (step jvm) (hookCalls jvm) initialState ls)).filter heard)
        (rounds.flatMap Round.delivered) := by
  obtain ⟨a, hrun', _, hsame⟩ :=
    (machine_logs jvm hlog).run ⟨.refl initialState, rfl⟩ hrun
  obtain ⟨rounds, hrounds⟩ := Agent.inRounds_of_run hserves hrun' t
  have hsame' : emitted (step jvm) log initialState ls =
      emitted (Agent.logging jvm agentLog).step (Agent.logging jvm agentLog).events Agent.initial
        ls := hsame
  rw [← hsame'] at hrounds
  have hdelivered := (served_eq_filter hserved initialState ls).symm.trans hrounds.served
  refine ⟨rounds, hrounds, hdelivered, fun r hr => (hrounds.ok r hr).delivered_eq, ?_⟩
  rw [← hdelivered]
  exact List.rel_filter (fun call e => hheard call e) (Parts.ofPart_forall₂ (calls_heard jvm ls) t)

end

/-- In every run, and whatever the other threads do, the calls of a thread are announced in
rounds.  A round starts with the hooks that are registered for the method at the call, in
the order of the chain, and calls them one by one; it ends after the last of them or when a
hook throws, and the next one starts only then.  Nothing else calls a hook of a call.  Each is
called through a live reference, if nothing disturbs a dispatch. -/
theorem entry_broadcasts_in_rounds (jvm : Jvm) (ls : List Label) (s : State)
    (hrun : run (step jvm) initialState ls = some s) (t : Tid) :
    ∃ rounds, InRounds
        (Parts.ofPart t (emitted (step jvm) (entryLog jvm) initialState ls)) rounds ∧
      (∀ r ∈ rounds, r.stopped = some false → r.delivered = r.items) ∧
      List.Forall₂ HookCall.Hears
        ((Parts.ofPart t (emitted (step jvm) (hookCalls jvm) initialState ls)).filter
          HookCall.isPreInvoke) (rounds.flatMap Round.delivered) ∧
      ((∀ s₁ l, Takes (step jvm) initialState ls s₁ l → DispatchUndisturbed jvm t s₁ l) →
        ∀ call ∈ Parts.ofPart t (emitted (step jvm) (hookCalls jvm) initialState ls),
          call.HookRead) := by
  obtain ⟨rounds, hrounds, _, hall, hheard⟩ :=
    rounds_of_logs (fun _ l hreachable => entryLog_eq hreachable l)
      (fun _ _ _ _ hok hmove => hmove.serves_entry hok) (entryLog_served jvm t)
      (fun _ _ hhears => hhears.isPreInvoke) hrun
  refine ⟨rounds, hrounds, hall, hheard, fun hquiet call hcall => ?_⟩
  exact (calls_read_iff jvm ls t).mpr hquiet call (Parts.mem_ofPart.mp hcall)

/-- Two calls, the first of them of a method with two hooks of which the second throws. -/
def twoRoundsRun : List Label :=
  [.register ⟨1⟩ (some ⟨5⟩), .register ⟨1⟩ (some ⟨6⟩), .register ⟨2⟩ (some ⟨7⟩),
    .call 0 ⟨1⟩ fun _ => none, .broadcast 0, .dispatch 0, .finish 0 true,
    .call 0 ⟨2⟩ fun _ => none, .broadcast 0, .dispatch 0, .finish 0 false]

theorem entry_broadcasts_in_rounds_twoRounds :
    ∃ rounds, InRounds
        [.start [.preInvoke (Jvm.plain.metadata ⟨1⟩) (some (some ⟨5⟩)),
            .preInvoke (Jvm.plain.metadata ⟨1⟩) (some (some ⟨6⟩))],
          .serve (.preInvoke (Jvm.plain.metadata ⟨1⟩) (some (some ⟨5⟩))), .stop true,
          .start [.preInvoke (Jvm.plain.metadata ⟨2⟩) (some (some ⟨7⟩))],
          .serve (.preInvoke (Jvm.plain.metadata ⟨2⟩) (some (some ⟨7⟩))), .stop false] rounds ∧
      List.Forall₂ HookCall.Hears
        [.preInvoke (Jvm.plain.metadata ⟨1⟩).told (.read (some ⟨5⟩)),
          .preInvoke (Jvm.plain.metadata ⟨2⟩).told (.read (some ⟨7⟩))]
        (rounds.flatMap Round.delivered) := by
  have hcalls : (Parts.ofPart 0 (emitted (step .plain) (hookCalls .plain) initialState
      twoRoundsRun)).filter HookCall.isPreInvoke =
        [.preInvoke (Jvm.plain.metadata ⟨1⟩).told (.read (some ⟨5⟩)),
          .preInvoke (Jvm.plain.metadata ⟨2⟩).told (.read (some ⟨7⟩))] := rfl
  obtain ⟨rounds, hrounds, _, hheard, _⟩ :=
    entry_broadcasts_in_rounds .plain twoRoundsRun _ rfl 0
  exact ⟨rounds, hrounds, hcalls ▸ hheard⟩

/-- So are its exits.  A round calls as many hooks as the record counts, and reads them from
the array that the record holds. -/
theorem exit_broadcasts_in_rounds (jvm : Jvm) (ls : List Label) (s : State)
    (hrun : run (step jvm) initialState ls = some s) (t : Tid) :
    ∃ rounds, InRounds
        (Parts.ofPart t (emitted (step jvm) (exitLog jvm) initialState ls)) rounds ∧
      (Parts.ofPart t (emitted (step jvm) (hookEvents jvm) initialState ls)).filter
          Agent.Event.isPostInvoke = rounds.flatMap Round.delivered ∧
      (∀ r ∈ rounds, r.stopped = some false → r.delivered = r.items) ∧
      List.Forall₂ HookCall.Hears
        ((Parts.ofPart t (emitted (step jvm) (hookCalls jvm) initialState ls)).filter
          HookCall.isPostInvoke) (rounds.flatMap Round.delivered) :=
  rounds_of_logs (fun _ l hreachable => exitLog_eq hreachable l)
    (fun _ _ _ _ hok hmove => hmove.serves_exit hok) (exitLog_served jvm t)
    (fun _ _ hhears => hhears.isPostInvoke) hrun

/-- The exit of a hooked call. -/
theorem exit_broadcasts_in_rounds_announcedCall :
    ∃ rounds, InRounds
        [.start [.postInvoke (Agent.exitMetadata .plain ⟨1⟩ ⟨1⟩) (some (some ⟨5⟩)) false none],
          .serve (.postInvoke (Agent.exitMetadata .plain ⟨1⟩ ⟨1⟩) (some (some ⟨5⟩)) false none),
          .stop false] rounds ∧
      [Agent.Event.postInvoke (Agent.exitMetadata .plain ⟨1⟩ ⟨1⟩) (some (some ⟨5⟩)) false none] =
        rounds.flatMap Round.delivered := by
  obtain ⟨rounds, hrounds, hdelivered, _⟩ :=
    exit_broadcasts_in_rounds .plain announcedCallRun _ rfl 0
  exact ⟨rounds, hrounds, hdelivered⟩

end JvmHookFramework
