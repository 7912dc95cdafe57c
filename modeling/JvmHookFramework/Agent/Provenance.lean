/-
  Agent/Provenance.lean --- hooks are called because they were registered.

  Whatever is announced on a thread goes back to a call on the same thread, and the hooks it
  is announced to were collected for this call: each had been registered for the method and
  not been unregistered since.  The announcement of a call is about that very call.  That of
  an exit may not be, since the thread keeps the method of one call and the hooks of another.
  What is called through a dead reference no one knows, but the hook that the reference was made
  for was collected in the same way.
-/
import Mathlib.Data.List.Induction
import JvmHookFramework.Agent.Calls
import JvmHookFramework.Agent.Move

set_option autoImplicit false

namespace JvmHookFramework

open Foundation Foundation.SlotChain

namespace Agent

/-! ## Where a hook comes from -/

/-- The hook was registered for the method and has not been unregistered since. -/
def Stands (jvm : Jvm) (history : List Label) (h : Hooked) : Prop :=
  ∃ before after, history = before ++ .register h.1 h.2 :: after ∧
    ∀ m hook, .unregister m hook ∈ after → named jvm m hook h = false

/-- The method was called on the thread while the hook stood for it. -/
def Collected (jvm : Jvm) (history : List Label) (t : Tid) (m : JmethodID) (hook : Option Obj) :
    Prop :=
  ∃ before frame after key, history = before ++ .call t m frame :: after ∧
    jvm.deref key = jvm.deref m ∧ Stands jvm before (key, hook)

/-- Why a hook is called. -/
def Event.Accounted (jvm : Jvm) (history : List Label) (t : Tid) : Event → Prop
  | .preInvoke call hook =>
      ∃ m o, call = jvm.metadata m ∧ hook = some o ∧ Collected jvm history t m o
  | .postInvoke _ hook _ _ => ∀ o, hook = some o → ∃ m, Collected jvm history t m o
  | .classPrepare _ _ => True

def Frame.Accounted (jvm : Jvm) (history : List Label) (t : Tid) : Frame → Prop
  | .entering r _ =>
      ∃ m, r.about = jvm.metadata m ∧ ∀ o ∈ r.hooks, Collected jvm history t m o
  | .exiting r _ _ _ _ => ∀ o ∈ r.hooks, ∃ m, Collected jvm history t m o
  | .method _ | .preparing => True

structure Thread.Accounted (jvm : Jvm) (history : List Label) (t : Tid) (th : Thread) : Prop where
  stack : ∀ f ∈ th.stack, f.Accounted jvm history t
  pending : ∀ hooks, th.pending = some hooks → ∀ o ∈ hooks, ∃ m, Collected jvm history t m o

structure Accounted (jvm : Jvm) (history : List Label)
    (s : Compound (List (Option Hooked)) Thread Tid) : Prop where
  stands : ∀ h ∈ values s.shared, Stands jvm history h
  threads : ∀ t, (s.part t).Accounted jvm history t

section

variable {jvm : Jvm} {history : List Label} {t : Tid} {l : Label}

theorem Stands.register (jvm : Jvm) (history : List Label) (m : JmethodID) (hook : Option Obj) :
    Stands jvm (history ++ [.register m hook]) (m, hook) :=
  ⟨history, [], rfl, fun _ _ hmem => absurd hmem List.not_mem_nil⟩

/-- A hook stands until it is unregistered. -/
theorem Stands.concat {h : Hooked} (hstands : Stands jvm history h)
    (hkept : ∀ m hook, l = .unregister m hook → named jvm m hook h = false) :
    Stands jvm (history ++ [l]) h := by
  obtain ⟨before, after, rfl, hafter⟩ := hstands
  refine ⟨before, after ++ [l], by rw [List.append_assoc, List.cons_append], ?_⟩
  intro m hook hmem
  rcases List.mem_append.mp hmem with hmem | hmem
  · exact hafter m hook hmem
  · exact hkept m hook (List.mem_singleton.mp hmem).symm

theorem Collected.concat {m : JmethodID} {hook : Option Obj}
    (h : Collected jvm history t m hook) (l : Label) :
    Collected jvm (history ++ [l]) t m hook := by
  obtain ⟨before, frame, after, key, rfl, hkey, hstands⟩ := h
  exact ⟨before, frame, after ++ [l], key, by rw [List.append_assoc, List.cons_append], hkey,
    hstands⟩

theorem Frame.Accounted.concat {f : Frame} (h : f.Accounted jvm history t) (l : Label) :
    f.Accounted jvm (history ++ [l]) t := by
  cases f with
  | method | preparing => trivial
  | entering r next =>
      obtain ⟨m, habout, hhooks⟩ := h
      exact ⟨m, habout, fun o ho => (hhooks o ho).concat l⟩
  | exiting r count i popped value =>
      intro o ho
      obtain ⟨m, hm⟩ := h o ho
      exact ⟨m, hm.concat l⟩

theorem Thread.Accounted.concat {th : Thread} (h : th.Accounted jvm history t) (l : Label) :
    th.Accounted jvm (history ++ [l]) t where
  stack f hf := (h.stack f hf).concat l
  pending hooks hhooks o ho := by
    obtain ⟨m, hm⟩ := h.pending hooks hhooks o ho
    exact ⟨m, hm.concat l⟩

/-! ## What a step keeps -/

/-- What is collected for a call stands. -/
theorem collected_of_hooksOf {chain : List (Option Hooked)}
    (hstands : ∀ h ∈ values chain, Stands jvm history h) {m : JmethodID} {o : Option Obj}
    (ho : o ∈ hooksOf jvm chain m) (frame : Locals) :
    Collected jvm (history ++ [.call t m frame]) t m o := by
  obtain ⟨h, hmem, rfl⟩ := List.mem_map.mp ho
  obtain ⟨hmem, hkey⟩ := List.mem_filter.mp hmem
  exact ⟨history, frame, [], h.1, rfl, of_decide_eq_true hkey, hstands h hmem⟩

/-- A move that leaves what is pending as it is and of the stack only the frames that are
accounted for. -/
theorem Thread.Accounted.of_stack {th : Thread} (h : th.Accounted jvm history t)
    {stack : List Frame} (hstack : ∀ f ∈ stack, f.Accounted jvm history t) :
    Thread.Accounted jvm history t { th with stack := stack } := ⟨hstack, h.pending⟩

theorem Thread.Accounted.move {chain : List (Option Hooked)} {th th' : Thread}
    (h : th.Accounted jvm history t) (hstands : ∀ h ∈ values chain, Stands jvm history h)
    (hself : l.thread = some t) (hmove : Move jvm chain th l th') :
    th'.Accounted jvm (history ++ [l]) t := by
  have hlater := h.concat l
  have hbelow := hlater.stack
  cases hmove with
  | called => exact hlater.of_stack (List.forall_mem_cons.mpr ⟨trivial, hbelow⟩)
  | @callAnnounced u m frame halive hannounces =>
      obtain rfl := Option.some.inj hself
      refine ⟨List.forall_mem_cons.mpr ⟨⟨m, rfl, fun o ho => ?_⟩, ?_⟩, hlater.pending⟩
      · exact collected_of_hooksOf hstands ho frame
      · exact List.forall_mem_cons.mpr ⟨trivial, hbelow⟩
  | left hstack =>
      rw [hstack, List.forall_mem_cons] at hbelow
      exact hlater.of_stack hbelow.2
  | exitAnnounced hstack hpending =>
      rw [hstack] at hbelow
      exact hlater.of_stack (List.forall_mem_cons.mpr ⟨hlater.pending _ hpending, hbelow⟩)
  | prepared => exact hlater
  | classAnnounced => exact hlater.of_stack (List.forall_mem_cons.mpr ⟨trivial, hbelow⟩)
  | starts hstack | entryCalls hstack | exitCalls hstack =>
      rw [hstack, List.forall_mem_cons] at hbelow
      exact hlater.of_stack (List.forall_mem_cons.mpr hbelow)
  | entryEnds hstack =>
      rw [hstack, List.forall_mem_cons] at hbelow
      obtain ⟨⟨m, _, hcollected⟩, hrest⟩ := hbelow
      refine ⟨List.forall_mem_cons.mpr ⟨trivial, (List.forall_mem_cons.mp hrest).2⟩, ?_⟩
      intro hooks hhooks o ho
      obtain rfl := Option.some.inj hhooks
      exact ⟨m, hcollected o ho⟩
  | exitEnds hstack =>
      rw [hstack, List.forall_mem_cons, List.forall_mem_cons] at hbelow
      exact ⟨hbelow.2.2, by simp⟩
  | prepareEnds hstack =>
      rw [hstack, List.forall_mem_cons] at hbelow
      exact hlater.of_stack hbelow.2
  | ended => exact ⟨by simp, by simp⟩

theorem stands_change {chain chain' : List (Option Hooked)}
    (hstands : ∀ h ∈ values chain, Stands jvm history h)
    (h : change jvm chain l = some chain') : ∀ h ∈ values chain', Stands jvm (history ++ [l]) h := by
  intro h' hmem
  cases l with
  | register m hook =>
      obtain rfl := Option.some.inj h
      rcases mem_values_fill.mp hmem with rfl | hmem
      · exact .register jvm history m hook
      · exact (hstands h' hmem).concat nofun
  | unregister m hook =>
      simp only [change] at h
      split at h
      · cases h
      · obtain rfl := Option.some.inj h
        rw [values_clear, List.mem_filter, Bool.not_eq_true'] at hmem
        refine (hstands h' hmem.1).concat fun m' hook' heq => ?_
        obtain ⟨rfl, rfl⟩ := Label.unregister.inj heq
        exact hmem.2
  | _ =>
      obtain rfl := Option.some.inj h
      exact (hstands h' hmem).concat nofun

theorem Accounted.step {s s' : Compound (List (Option Hooked)) Thread Tid}
    (h : Accounted jvm history s) (hstep : (machine jvm).step s l = some s') :
    Accounted jvm (history ++ [l]) s' := by
  rcases Parts.step_cases hstep with ⟨_, chain, hchange, rfl⟩ | ⟨t, th, hself, hmove, rfl⟩
  · exact ⟨stands_change h.stands hchange, fun t => (h.threads t).concat l⟩
  · refine ⟨fun x hx => (h.stands x hx).concat ?_, fun u => ?_⟩
    · rintro m hook rfl
      cases hself
    · by_cases hut : u = t
      · subst hut
        simp only [Function.update_self]
        exact (h.threads u).move h.stands hself (move_cases hmove)
      · simp only [Function.update_of_ne hut]
        exact (h.threads u).concat l

/-- What a step calls hooks with goes back to what is on the stack. -/
theorem Accounted.events {s s' : Compound (List (Option Hooked)) Thread Tid}
    (h : Accounted jvm history s) (hstep : (machine jvm).step s l = some s') {e : Event}
    (he : (t, e) ∈ (machine jvm).events s l) : e.Accounted jvm history t := by
  rcases Parts.step_cases hstep with ⟨hnone, _, _, _⟩ | ⟨u, th, hself, hmove, _⟩
  · simp only [Parts.events, hnone, List.not_mem_nil] at he
  · simp only [Parts.events, hself] at he
    obtain ⟨e', he', heq⟩ := List.mem_map.mp he
    obtain ⟨rfl, rfl⟩ := Prod.mk.inj heq
    have hstack := (h.threads u).stack
    cases move_cases hmove with
    | entryCalls htop hlt =>
        rw [htop] at hstack
        obtain ⟨m, habout, hhooks⟩ := hstack _ List.mem_cons_self
        simp only [machine, Thread.emit, htop, List.mem_singleton] at he'
        rw [he']
        exact ⟨m, _, habout, List.getElem?_eq_getElem hlt, hhooks _ (List.getElem_mem hlt)⟩
    | exitCalls htop hlt =>
        rw [htop] at hstack
        have hhooks := hstack _ List.mem_cons_self
        simp only [machine, Thread.emit, htop, List.mem_singleton] at he'
        rw [he']
        exact fun o ho => hhooks o (List.mem_of_getElem? ho)
    | prepared | classAnnounced =>
        simp only [machine, Thread.emit] at he'
        cases e' with
        | classPrepare => trivial
        | preInvoke | postInvoke => split at he' <;> simp at he'
    | _ => cases he'

end

theorem accounted_initial (jvm : Jvm) : Accounted jvm [] initial where
  stands := by simp [initial]
  threads _ := ⟨by simp [initial], by simp [initial]⟩

theorem accounted_of_run {jvm : Jvm} {ls : List Label}
    {s : Compound (List (Option Hooked)) Thread Tid}
    (hrun : run (machine jvm).step initial ls = some s) : Accounted jvm ls s := by
  induction ls using List.reverseRecOn generalizing s with
  | nil =>
      obtain rfl := Option.some.inj hrun
      exact accounted_initial jvm
  | append_singleton ls l ih =>
      obtain ⟨mid, hmid, hlast⟩ := run_append.mp hrun
      obtain ⟨s', hs', hnil⟩ := run_cons_eq_some_iff.mp hlast
      obtain rfl := Option.some.inj hnil
      exact (ih hmid).step hs'

end Agent

/-- Why the machine makes the call, with a live reference to the hook or with a dead one. -/
def HookCall.Accounted (jvm : Jvm) (history : List Label) (t : Tid) : HookCall → Prop
  | .preInvoke told hook =>
      ∃ m o, told = (jvm.metadata m).told ∧ hook.made = some o ∧
        Agent.Collected jvm history t m o
  | .postInvoke _ hook _ _ =>
      ∀ o, hook.made = some o → ∃ m, Agent.Collected jvm history t m o
  | .classPrepare _ _ => True

/-- What is accounted for in the abstract agent is so in the machine. -/
theorem HookCall.Hears.accounted {jvm : Jvm} {history : List Label} {t : Tid} {call : HookCall}
    {e : Agent.Event} (hheard : call.Hears e) (h : e.Accounted jvm history t) :
    call.Accounted jvm history t := by
  cases call with
  | preInvoke told hook =>
      cases e with
      | preInvoke about given =>
          obtain ⟨htold, hmade⟩ := hheard
          obtain ⟨m, o, rfl, rfl, hcollected⟩ := h
          exact ⟨m, o, htold, hmade, hcollected⟩
      | postInvoke | classPrepare => exact hheard.elim
  | postInvoke told hook isException value =>
      cases e with
      | postInvoke about given isException' value' =>
          obtain ⟨_, hmade, _⟩ := hheard
          exact fun o ho => h o (hmade.symm.trans ho)
      | preInvoke | classPrepare => exact hheard.elim
  | classPrepare klass loader => trivial

/-- In every run, a hook is called because of a call on the same thread, for whose method it
had been registered and, when the method was called, not been unregistered since; and a dead
reference through which a hook is called was made for one like this.  A `preInvoke` is about
that call, and it is called with a hook. -/
theorem hooks_called_are_accounted (jvm : Jvm) (ls : List Label) (s s' : State) (l : Label)
    (hrun : run (step jvm) initialState ls = some s) (hstep : step jvm s l = some s') (t : Tid)
    (call : HookCall) (hcall : (t, call) ∈ hookCalls jvm s l) : call.Accounted jvm ls t := by
  have hreachable : Reachable (step jvm) initialState s := ⟨ls, hrun⟩
  obtain ⟨e, he, hheard⟩ := exists_heard (hookCalls_heard hreachable) hcall
  rw [hookEvents_eq hreachable hstep] at he
  have haccounted := Agent.accounted_of_run (runs_refine_agent jvm ls s hrun).1
  exact hheard.accounted (haccounted.events (step_refines hreachable hstep) he)

theorem hooks_called_are_accounted_announcedCall :
    (HookCall.preInvoke (Jvm.plain.metadata ⟨1⟩).told (.read (some ⟨5⟩))).Accounted .plain
      [.register ⟨1⟩ (some ⟨5⟩), .call 0 ⟨1⟩ fun _ => none, .broadcast 0] 0 :=
  hooks_called_are_accounted .plain _ _ _ (.dispatch 0) rfl rfl 0 _ List.mem_cons_self

end JvmHookFramework
