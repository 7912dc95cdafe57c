/-
  Agent/Isolation.lean --- what happens on a thread is its own doing.

  The threads share the registry, and beyond it the arrays, the references and the objects
  of their callbacks.  Of all that only the registry matters: what a thread announces, to
  whom and when, is the same when the steps of the other threads and the native calls of
  the hooks are left out.
-/
import JvmHookFramework.Agent.Progress

set_option autoImplicit false

namespace JvmHookFramework

open Foundation Foundation.SlotChain

section

variable {jvm : Jvm} {s s' : State} {t : Tid} {l : Label} {f : Frame}

/-! ## What stands for a frame of the agent -/

theorem State.stack_of_view {g : Agent.Frame} {below : List Agent.Frame}
    (h : (s.view t).stack = g :: below) :
    ∃ f rest, s.stack t = f :: rest ∧ f.view s = g ∧ rest.map (Frame.view s) = below :=
  List.map_eq_cons_iff.mp h

theorem Frame.eq_methodEntry_of_view {r : Agent.Announcement} {next : Option Nat}
    (h : f.view s = .entering r next) :
    ∃ c, f = .methodEntry c ∧ c.loop = next ∧ s.hooksIn c.hookInstances = r.hooks := by
  cases f with
  | activation | methodExit | classPrepare => cases h
  | methodEntry c =>
      obtain ⟨rfl, rfl⟩ := Agent.Frame.entering.inj h
      exact ⟨c, rfl, rfl, rfl⟩

theorem Frame.eq_methodExit_of_view {r : Agent.Announcement} {count i : Nat} {popped : Bool}
    {value : Option Jvalue} (h : f.view s = .exiting r count i popped value) :
    ∃ c, f = .methodExit c ∧ c.size = count ∧ c.i = i := by
  cases f with
  | activation | methodEntry | classPrepare => cases h
  | methodExit c =>
      obtain ⟨_, rfl, rfl, _⟩ := Agent.Frame.exiting.inj h
      exact ⟨c, rfl, rfl, rfl⟩

theorem Frame.eq_classPrepare_of_view (h : f.view s = .preparing) : f = .classPrepare := by
  cases f with
  | classPrepare => rfl
  | activation | methodEntry | methodExit => cases h

/-! ## The machine does what the agent can do -/

/-- A label that the agent can take fits the state of the machine. -/
theorem fits_of_move (hreachable : Reachable (step jvm) initialState s)
    {chain : List (Option Agent.Hooked)} {th : Agent.Thread} (hself : l.thread = some t)
    (h : (s.view t).move jvm chain l = some th) : l.Fits s := by
  have hmade := made_of_reachable hreachable t
  cases Agent.move_cases h with
  | called halive | callAnnounced halive | prepared halive | classAnnounced halive =>
      obtain rfl := Option.some.inj hself
      exact halive
  | left hstack | exitAnnounced hstack =>
      obtain rfl := Option.some.inj hself
      obtain ⟨f, rest, hframes, hf, _⟩ := State.stack_of_view hstack
      obtain ⟨a, rfl⟩ := Frame.eq_activation_of_view hf
      exact ⟨a, rest, hframes⟩
  | starts hstack =>
      obtain rfl := Option.some.inj hself
      obtain ⟨f, rest, hframes, hf, _⟩ := State.stack_of_view hstack
      obtain ⟨c, rfl, hloop, _⟩ := Frame.eq_methodEntry_of_view hf
      exact ⟨c, rest, hframes, hloop⟩
  | entryCalls hstack hlt =>
      obtain rfl := Option.some.inj hself
      obtain ⟨f, rest, hframes, hf, _⟩ := State.stack_of_view hstack
      obtain ⟨c, rfl, hloop, hhooks⟩ := Frame.eq_methodEntry_of_view hf
      have hcount := State.length_hooksIn (hmade _ (hframes ▸ List.mem_cons_self))
      rw [← hhooks, hcount] at hlt
      exact Or.inl ⟨c, rest, _, hframes, hloop, hlt⟩
  | exitCalls hstack hlt =>
      obtain rfl := Option.some.inj hself
      obtain ⟨f, rest, hframes, hf, _⟩ := State.stack_of_view hstack
      obtain ⟨c, rfl, rfl, rfl⟩ := Frame.eq_methodExit_of_view hf
      exact Or.inr ⟨c, rest, hframes, hlt⟩
  | entryEnds hstack hend =>
      obtain rfl := Option.some.inj hself
      obtain ⟨f, rest, hframes, hf, _⟩ := State.stack_of_view hstack
      obtain ⟨c, rfl, hloop, hhooks⟩ := Frame.eq_methodEntry_of_view hf
      have hcount := State.length_hooksIn (hmade _ (hframes ▸ List.mem_cons_self))
      rw [← hhooks, hcount] at hend
      exact Or.inl ⟨c, rest, _, hframes, hloop, hend⟩
  | exitEnds hstack hend =>
      obtain rfl := Option.some.inj hself
      obtain ⟨f, rest, hframes, hf, _⟩ := State.stack_of_view hstack
      obtain ⟨c, rfl, rfl, rfl⟩ := Frame.eq_methodExit_of_view hf
      exact Or.inr (Or.inl ⟨c, rest, hframes, hend⟩)
  | prepareEnds hstack =>
      obtain rfl := Option.some.inj hself
      obtain ⟨f, rest, hframes, hf, _⟩ := State.stack_of_view hstack
      obtain rfl := Frame.eq_classPrepare_of_view hf
      exact Or.inr (Or.inr ⟨rest, hframes⟩)
  | ended hstack halive =>
      obtain rfl := Option.some.inj hself
      exact ⟨List.map_eq_nil_iff.mp hstack, halive⟩

/-- What the agent can do the machine can do, native calls apart. -/
theorem step_of_agent (hlegal : jvm.Legal) (hreachable : Reachable (step jvm) initialState s)
    (hnative : ∀ h op, l ≠ .native h op) {a : Compound (List (Option Agent.Hooked)) Agent.Thread Tid}
    (hstep : (Agent.machine jvm).step s.abstract l = some a) : ∃ s', step jvm s l = some s' := by
  rw [← Option.isSome_iff_exists, step_isSome_iff jvm hlegal s l hreachable]
  rcases Parts.step_cases hstep with ⟨hnone, chain, hchange, _⟩ | ⟨t, th, hself, hmove, _⟩
  · cases l with
    | register => exact ⟨trivial, nofun⟩
    | unregister method hook =>
        refine ⟨trivial, fun _ _ _ hempty => ?_⟩
        have hnone : (none : Option Agent.Hooked) ∈ s.registry.hooked :=
          Registry.none_mem_hooked.mpr hempty
        have hchange' : (if none ∈ s.registry.hooked then none else
            some (clear (Agent.named jvm method hook) s.registry.hooked)) = some chain := hchange
        rw [if_pos hnone] at hchange'
        cases hchange'
    | native h op => exact absurd rfl (hnative h op)
    | _ => cases hnone
  · refine ⟨fits_of_move hreachable hself hmove, ?_⟩
    rintro method hook rfl
    cases hself

end

/-! ## One thread alone -/

/-- The labels that mean something to the hooks of `t`. -/
def Label.concerns (t : Tid) : Label → Bool
  | .register _ _ | .unregister _ _ => true
  | .native _ _ => false
  | .call u _ _ | .leave u _ _ | .prepare u _ | .broadcast u | .dispatch u | .finish u _
  | .threadEnd u => decide (u = t)

theorem Label.concerns_owner {t : Tid} {l : Label} (h : l.concerns t = true) :
    l.thread = none ∨ l.thread = some t := by
  cases l with
  | register | unregister => exact Or.inl rfl
  | native => cases h
  | _ => exact Or.inr (congrArg some (of_decide_eq_true h))

theorem Label.foreign (jvm : Jvm) {t : Tid} {l : Label} (h : l.concerns t = false) :
    (Agent.machine jvm).Foreign t l := by
  cases l with
  | register | unregister => cases h
  | native =>
      refine ⟨nofun, fun _ chain chain' hchange => ?_⟩
      exact (Option.some.inj hchange).symm
  | _ => exact ⟨fun hself => of_decide_eq_false h (Option.some.inj hself), nofun⟩

/-- Take any run of the machine and a thread `t`, and leave out of the run the steps of the
other threads and every native call.  What is left is a run of the machine.  At its end `t`
is as it was, and its hooks were called with the same, in the same order. -/
theorem thread_isolated (jvm : Jvm) (hlegal : jvm.Legal) (t : Tid) (ls : List Label) (s : State)
    (hrun : run (step jvm) initialState ls = some s) :
    ∃ s', run (step jvm) initialState (ls.filter (Label.concerns t)) = some s' ∧
      s'.registry.hooked = s.registry.hooked ∧ s'.view t = s.view t ∧
      Parts.ofPart t (emitted (step jvm) (hookEvents jvm) initialState
          (ls.filter (Label.concerns t))) =
        Parts.ofPart t (emitted (step jvm) (hookEvents jvm) initialState ls) := by
  obtain ⟨hagent, hevents⟩ := runs_refine_agent jvm ls s hrun
  obtain ⟨a, halone, halike, hsame⟩ := Parts.run_filter (k := t)
    (fun l hl => Label.concerns_owner hl) (fun l hl => Label.foreign jvm hl) ⟨rfl, rfl⟩ hagent
  have hconcerns : ∀ l ∈ ls.filter (Label.concerns t), ∀ h op, l ≠ .native h op := by
    rintro l hl h op rfl
    cases (List.mem_filter.mp hl).2
  obtain ⟨s', hrun', hreachable', rfl⟩ := (machine_simulates jvm).lift
    (fun hrel hnative hstep => by
      obtain ⟨hreachable, rfl⟩ := hrel
      exact step_of_agent hlegal hreachable hnative hstep)
    ⟨.refl initialState, rfl⟩ hconcerns halone
  refine ⟨s', hrun', halike.1.symm, halike.2.symm, ?_⟩
  rw [(runs_refine_agent jvm _ s' hrun').2, hevents, hsame]

/-- Two threads call the hooked method, and a hook reads an argument. -/
def twoThreadsRun : List Label :=
  [.register ⟨1⟩ (some ⟨5⟩), .call 0 ⟨1⟩ fun _ => none, .call 1 ⟨1⟩ fun _ => none,
    .broadcast 0, .broadcast 1, .native 0 (.get .getAsInt 0), .dispatch 0, .dispatch 1,
    .finish 1 false, .finish 0 false]

theorem thread_isolated_twoThreads :
    ∃ s', run (step .plain) initialState (twoThreadsRun.filter (Label.concerns 0)) = some s' ∧
      Parts.ofPart 0 (emitted (step .plain) (hookEvents .plain) initialState
        (twoThreadsRun.filter (Label.concerns 0))) =
          [.preInvoke (Jvm.plain.metadata ⟨1⟩) (some (some ⟨5⟩))] := by
  obtain ⟨s', hrun, _, _, hevents⟩ :=
    thread_isolated .plain Jvm.plain_legal 0 twoThreadsRun _ rfl
  exact ⟨s', hrun, hevents.trans rfl⟩

end JvmHookFramework
