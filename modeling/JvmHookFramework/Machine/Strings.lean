/-
  Machine/Strings.lean --- the strings kept in the record.

  `onMethodEntry` stores two local references in the record and `onMethodExit` passes them
  on.  A local reference belongs to the callback that created it.  While that callback is
  on the stack the strings are valid and are the name and the descriptor of its method;
  once it has returned they are not, and no later callback brings them back.
-/
import JvmHookFramework.Machine.ExitSnapshot
import JvmHookFramework.Machine.Handles

set_option autoImplicit false

namespace JvmHookFramework

open Foundation Foundation.GuardStack

/-! ## Local references -/

/-- A local reference is valid on its thread until the callback that created it has
returned. -/
def Jstring.Valid (j : Jstring) (s : State) (t : Tid) : Prop :=
  j.callback ∈ s.runningCallbacks t

instance (j : Jstring) (s : State) (t : Tid) : Decidable (j.Valid s t) :=
  inferInstanceAs (Decidable (_ ∈ s.runningCallbacks t))

/-- The strings in the record, as `onMethodEntry` wrote them in the callback `c`. -/
def HookInvokingInfo.StringsOf (info : HookInvokingInfo) (jvm : Jvm) (c : CallbackId)
    (method : JmethodID) : Prop :=
  info.methodName = some ⟨c, jvm.methodName method⟩ ∧
    info.methodDesc = some ⟨c, jvm.methodDesc method⟩

/-- Whose strings the record has. -/
structure StringsOk (jvm : Jvm) (s : State) (info : HookInvokingInfo) (stack : List Frame) :
    Prop where
  /-- Those of the target, from a callback that has begun; with no entry callback running, it
  has returned. -/
  target : ∀ method, info.targetMethod = some method →
    ∃ c, c < s.callbacks.length ∧ info.StringsOf jvm c method ∧
      (info.runningHook = false → c ∉ (owners stack).map Prod.fst)
  /-- An entry callback has its own. -/
  inside : ∀ c, .methodEntry c ∈ stack →
    ∃ method, info.targetMethod = some method ∧ info.StringsOf jvm c.callback method

theorem stringsOk_empty (jvm : Jvm) (s : State) : StringsOk jvm s {} [] where
  target := by
    intro method h
    cases h
  inside := by
    intro c h
    cases h

section

variable {jvm : Jvm} {s s' : State} {t : Tid} {l : Label} {info info' : HookInvokingInfo}
  {stack stack' : List Frame}

theorem Step.callbacks_length (h : Step jvm s l s') : s.callbacks.length ≤ s'.callbacks.length := by
  rcases h.callbacks with hcontinues | ⟨t, hbegins⟩ | ⟨t, c, hs, hreturns⟩
  · by_contra hless
    rw [not_le] at hless
    have hsame := hcontinues.callbacks s'.callbacks.length
    rw [List.getElem?_eq_none (Nat.le_refl _), List.getElem?_eq_getElem hless] at hsame
    cases hsame
  · obtain ⟨cb, _, hcallbacks⟩ := hbegins.callbacks
    rw [hcallbacks, List.length_append]
    exact Nat.le_add_right _ _
  · rw [hreturns.callbacks, List.length_modify]

theorem Step.callbacks_call {method : JmethodID} {frame : Locals}
    (h : Step jvm s (.call t method frame) s') (hpasses : EntryPasses jvm s t method) :
    s.callbacks.length < s'.callbacks.length := by
  have happend : ∃ cb, s'.callbacks = s.callbacks ++ [cb] := by
    cases h with
    | callUnhooked halive hnone => exact absurd hnone hpasses.1
    | callSuppressed halive hsome hguard => exact absurd hguard hpasses.2
    | callBroadcast => exact ⟨_, rfl⟩
  obtain ⟨cb, hcallbacks⟩ := happend
  rw [hcallbacks, List.length_append]
  exact Nat.lt_succ_self _

/-- A step that leaves the strings and the entry callbacks alone; it may begin an exit
callback. -/
theorem StringsOk.step (h : StringsOk jvm s info stack) (hstep : Step jvm s l s')
    (htarget : info'.targetMethod = info.targetMethod)
    (hstrings : info'.methodName = info.methodName ∧ info'.methodDesc = info.methodDesc)
    (hrunning : info'.runningHook = info.runningHook)
    (hentries : ∀ c, .methodEntry c ∈ stack' → ∃ c', .methodEntry c' ∈ stack ∧
      c'.callback = c.callback)
    (howners : ∀ c ∈ (owners stack').map Prod.fst,
      c ∈ (owners stack).map Prod.fst ∨ c = s.callbacks.length) :
    StringsOk jvm s' info' stack' where
  target := by
    intro method hmethod
    rw [htarget] at hmethod
    obtain ⟨c, hlt, ⟨hname, hdesc⟩, hgone⟩ := h.target method hmethod
    refine ⟨c, Nat.lt_of_lt_of_le hlt hstep.callbacks_length,
      ⟨hstrings.1.trans hname, hstrings.2.trans hdesc⟩, fun hquiet hmem => ?_⟩
    rcases howners c hmem with hold | rfl
    · exact hgone (hrunning.symm.trans hquiet) hold
    · exact Nat.lt_irrefl _ hlt
  inside := by
    intro c hc
    obtain ⟨c', hc', hsame⟩ := hentries c hc
    obtain ⟨method, hmethod, hname, hdesc⟩ := h.inside c' hc'
    rw [← hsame]
    exact ⟨method, htarget.trans hmethod, hstrings.1.trans hname, hstrings.2.trans hdesc⟩

/-- A step that leaves the record and what it says about the stack alone. -/
theorem StringsOk.idle (h : StringsOk jvm s info stack) (hstep : Step jvm s l s') :
    StringsOk jvm s' info stack :=
  h.step hstep rfl ⟨rfl, rfl⟩ rfl (fun c hc => ⟨c, hc, rfl⟩) (fun _ hc => Or.inl hc)

theorem stringsOk_entryBegins {c : EntryCall} {method : JmethodID} {a : Activation}
    {hookCount : Nat} {array : ArrayId}
    (hbegins : s.callbacks.length < s'.callbacks.length)
    (hcallback : c.callback = s.callbacks.length)
    (hnone : entryArrays stack = []) :
    StringsOk jvm s' (info.entry jvm s.callbacks.length method hookCount array)
      (.methodEntry c :: .activation a :: stack) where
  target := by
    intro method' hmethod
    obtain rfl := Option.some.inj hmethod
    exact ⟨_, hbegins, ⟨rfl, rfl⟩, fun hquiet => absurd hquiet.symm Bool.false_ne_true⟩
  inside := by
    intro d hd
    have hdc : d = c := by
      rcases List.mem_cons.mp hd with heq | hd
      · exact Frame.methodEntry.inj heq
      · have hmem : d.hookInstances ∈ entryArrays (.activation a :: stack) :=
          List.mem_filterMap.mpr ⟨_, hd, rfl⟩
        rw [entryArrays_activation, hnone] at hmem
        cases hmem
    rw [hdc, hcallback]
    exact ⟨method, rfl, rfl, rfl⟩

theorem StringsOk.entryEnds {c : EntryCall} {a a' : Activation} {rest : List Frame}
    (h : StringsOk jvm s info (.methodEntry c :: .activation a :: rest)) (hstep : Step jvm s l s')
    (hnodup : ((owners (.methodEntry c :: .activation a :: rest)).map Prod.fst).Nodup)
    (hnone : entryArrays rest = []) {hooks : Option ArrayId} :
    StringsOk jvm s' { info with hooks := hooks, runningHook := false }
      (.activation a' :: rest) where
  target := by
    intro method hmethod
    obtain ⟨method', hmethod', hstrings⟩ := h.inside c List.mem_cons_self
    obtain rfl := Option.some.inj (hmethod'.symm.trans hmethod)
    obtain ⟨d, hlt, hstrings', _⟩ := h.target method' hmethod'
    have hdc : d = c.callback :=
      congrArg Jstring.callback (Option.some.inj (hstrings'.1.symm.trans hstrings.1))
    refine ⟨d, Nat.lt_of_lt_of_le hlt hstep.callbacks_length, hstrings', fun _ => ?_⟩
    rw [hdc]
    exact (List.nodup_cons.mp hnodup).1
  inside := by
    intro d hd
    have hmem : d.hookInstances ∈ entryArrays (.activation a' :: rest) :=
      List.mem_filterMap.mpr ⟨_, hd, rfl⟩
    rw [entryArrays_activation, hnone] at hmem
    cases hmem

theorem StringsOk.thread (h : StringsOk jvm s (s.info t) (s.stack t)) (hok : HandlesOk s)
    (hexact : Exact (s.info t).flag (s.running t)) (hstep : Step jvm s l s')
    (hthread : ThreadStep jvm s t l info stack) : StringsOk jvm s' info stack := by
  have hsame : ∀ {frames : List Frame}, ∀ c ∈ (owners frames).map Prod.fst,
      c ∈ (owners frames).map Prod.fst ∨ c = s.callbacks.length := fun _ hc => Or.inl hc
  cases hthread with
  | idle => exact h.idle hstep
  | ended => exact stringsOk_empty jvm s'
  | called =>
      refine h.step hstep rfl ⟨rfl, rfl⟩ rfl (fun c hc => ?_) hsame
      exact ⟨c, by simpa using hc, rfl⟩
  | entryBegins hpasses hcallback =>
      have hnone := entryArrays_eq_nil hexact hpasses.flags.1
      exact stringsOk_entryBegins (hstep.callbacks_call hpasses) hcallback hnone
  | left hstack =>
      rw [hstack] at h
      refine h.step hstep rfl ⟨rfl, rfl⟩ rfl (fun c hc => ?_) hsame
      exact ⟨c, List.mem_cons_of_mem _ hc, rfl⟩
  | exitBegins hstack hpasses hcallback =>
      rw [hstack] at h
      refine h.step hstep rfl ⟨rfl, rfl⟩ rfl (fun c hc => ?_) (fun c hc => ?_)
      · exact ⟨c, by simpa using hc, rfl⟩
      · rcases List.mem_cons.mp hc with rfl | hold
        · exact Or.inr hcallback
        · exact Or.inl hold
  | prepareBegins =>
      refine h.step hstep rfl ⟨rfl, rfl⟩ rfl (fun c hc => ?_) hsame
      exact ⟨c, by simpa using hc, rfl⟩
  | @entryLoops l d rest i hstack =>
      rw [hstack] at h
      refine h.step hstep rfl ⟨rfl, rfl⟩ rfl (fun c hc => ?_) hsame
      rcases List.mem_cons.mp hc with heq | hold
      · obtain rfl := Frame.methodEntry.inj heq
        exact ⟨d, List.mem_cons_self, rfl⟩
      · exact ⟨c, List.mem_cons_of_mem _ hold, rfl⟩
  | exitLoops hstack =>
      rw [hstack] at h
      refine h.step hstep rfl ⟨rfl, rfl⟩ rfl (fun c hc => ?_) hsame
      exact ⟨c, by simpa using hc, rfl⟩
  | entryEnds hstack =>
      have hnodup := hok.exclusive.nodup t
      unfold State.runningCallbacks at hnodup
      have hnone := entryArrays_below hexact hstack
      rw [hstack] at h hnodup
      exact h.entryEnds hstep hnodup hnone
  | exitEnds hstack =>
      rw [hstack] at h
      refine h.step hstep rfl ⟨rfl, rfl⟩ rfl (fun c hc => ?_) (fun c hc => Or.inl ?_)
      · exact ⟨c, List.mem_cons_of_mem _ (List.mem_cons_of_mem _ hc), rfl⟩
      · exact List.mem_cons_of_mem _ hc
  | prepareEnds hstack =>
      rw [hstack] at h
      refine h.step hstep rfl ⟨rfl, rfl⟩ rfl (fun c hc => ?_) hsame
      exact ⟨c, List.mem_cons_of_mem _ hc, rfl⟩

theorem stringsOk_of_reachable (h : Reachable (JvmHookFramework.step jvm) initialState s)
    (t : Tid) : StringsOk jvm s (s.info t) (s.stack t) := by
  let inv : State → Prop := fun s => StringsOk jvm s (s.info t) (s.stack t)
  have hinit : inv initialState := stringsOk_empty jvm initialState
  refine @reachable_invariant_with _ _ _ inv _ _ hinit ?_ h
  intro s l s' hreachable hinv hstep
  have hcases := step_cases hstep
  exact StringsOk.thread hinv (handlesOk_of_reachable hreachable)
    (guarded_of_reachable hreachable t) hcases (hcases.thread t)

/-- With no entry callback running the strings of the target are dead, for an exit callback
that begins then as well. -/
theorem StringsOk.dead {method : JmethodID} {c : ExitCall}
    (h : StringsOk jvm s (s.info t) (s.stack t)) (hquiet : (s.info t).runningHook = false)
    (htarget : (s.info t).targetMethod = some method) (hcallback : c.callback = s.callbacks.length)
    (hstack' : s'.stack t = .methodExit c :: s.stack t) :
    ∃ d, (s.info t).StringsOf jvm d method ∧ d ∉ s'.runningCallbacks t := by
  obtain ⟨d, hlt, hstrings, hgone⟩ := h.target method htarget
  refine ⟨d, hstrings, fun hmem => ?_⟩
  unfold State.runningCallbacks at hmem
  rw [hstack'] at hmem
  rcases List.mem_cons.mp hmem with rfl | hold
  · exact absurd hlt (hcallback ▸ Nat.lt_irrefl _)
  · exact hgone hquiet hold

end

/-! ## What the exit callback passes on -/

/-- If the step starts an exit broadcast on `t`, the strings that `onMethodExit` reads from
the record are valid, and are the name and the descriptor of the exiting method. -/
def ExitStringsValid (jvm : Jvm) (t : Tid) (s : State) (l : Label) : Prop :=
  ∀ a rest s' c, step jvm s l = some s' → s.stack t = .activation a :: rest →
    s'.stack t = .methodExit c :: s.stack t →
      (∀ j, (s.info t).methodName = some j → j.Valid s t ∧ j.chars = jvm.methodName a.method) ∧
      ∀ j, (s.info t).methodDesc = some j → j.Valid s t ∧ j.chars = jvm.methodDesc a.method

/-- An entry callback runs on `t`, for a method with the given one's name and descriptor. -/
def EntryRunsFor (jvm : Jvm) (t : Tid) (s : State) (method : JmethodID) : Prop :=
  (s.info t).runningHook = true ∧ ∃ target, (s.info t).targetMethod = some target ∧
    jvm.methodName target = jvm.methodName method ∧
    jvm.methodDesc target = jvm.methodDesc method

section

variable {jvm : Jvm} {s : State} {t : Tid} {l : Label}

theorem StringsOk.exitStringsValid_iff (h : StringsOk jvm s (s.info t) (s.stack t))
    (hexact : Exact (s.info t).flag (s.running t)) :
    ExitStringsValid jvm t s l ↔ ∀ popped value a rest hooks, l = .leave t popped value →
      s.stack t = .activation a :: rest → ExitPasses jvm (s.info t) a.method hooks →
        EntryRunsFor jvm t s a.method := by
  constructor
  · rintro hvalid popped value a rest hooks rfl hstack hpasses
    obtain ⟨_, _, target, htarget, _⟩ := id hpasses
    obtain ⟨c, _, ⟨hname, hdesc⟩, hgone⟩ := h.target target htarget
    have hstep := hpasses.step_leave hstack popped value
    obtain ⟨e, he, _⟩ := onMethodExit.stack_begin jvm s t a rest hooks popped value
    rw [← hstack] at he
    obtain ⟨hnames, hdescs⟩ := hvalid a rest _ e hstep hstack he
    obtain ⟨hin, hchars⟩ := hnames _ hname
    refine ⟨?_, target, htarget, hchars, (hdescs _ hdesc).2⟩
    by_contra hquiet
    exact hgone (eq_false_of_ne_true hquiet) hin
  · intro hruns a rest s' c hstep hstack hstack'
    obtain ⟨popped, value, a', rest', rfl, hstack₂, hpasses, _⟩ :=
      ((step_cases hstep).thread t).exit_begins hstack'
    obtain rfl := Frame.activation.inj (List.cons.inj (hstack₂.symm.trans hstack)).1
    obtain ⟨hrunning, target, htarget, hsameName, hsameDesc⟩ :=
      hruns popped value a' rest' _ rfl hstack₂ hpasses
    obtain ⟨f, hf, hguard⟩ := mem_guards.mp ((hexact.set_iff .runningHook).mp hrunning)
    cases f with
    | activation => cases hguard
    | methodExit => cases hguard
    | classPrepare => cases hguard
    | methodEntry e =>
        obtain ⟨method, hmethod, hname, hdesc⟩ := h.inside e hf
        obtain rfl := Option.some.inj (htarget.symm.trans hmethod)
        have hin : e.callback ∈ s.runningCallbacks t :=
          List.mem_map.mpr ⟨_, List.mem_filterMap.mpr ⟨_, hf, rfl⟩, rfl⟩
        refine ⟨fun j hj => ?_, fun j hj => ?_⟩
        · obtain rfl := Option.some.inj (hname.symm.trans hj)
          exact ⟨hin, hsameName⟩
        · obtain rfl := Option.some.inj (hdesc.symm.trans hj)
          exact ⟨hin, hsameDesc⟩

end

/-- In a run the strings that the exit broadcasts of `t` are given are valid, and are those
of the exiting method, if and only if each exit event that passes the guards of
`onMethodExit` does so while an entry callback of `t` runs, for a method of that name and
descriptor. -/
theorem exit_strings_valid_iff (jvm : Jvm) (t : Tid) (ls : List Label) :
    (∀ s l, Takes (step jvm) initialState ls s l → ExitStringsValid jvm t s l) ↔
    ∀ s l, Takes (step jvm) initialState ls s l → ∀ popped value a rest hooks,
      l = .leave t popped value → s.stack t = .activation a :: rest →
        ExitPasses jvm (s.info t) a.method hooks → EntryRunsFor jvm t s a.method :=
  forall_takes_congr fun _ _ hreachable =>
    (stringsOk_of_reachable hreachable t).exitStringsValid_iff (guarded_of_reachable hreachable t)

/-- The exit of a hooked call passes on two strings of the entry callback, which is gone. -/
theorem exit_strings_stale :
    ¬ ∀ ls s l, Takes (step .plain) initialState ls s l → ExitStringsValid .plain 0 s l := by
  intro hvalid
  let ls : List Label := [.register ⟨1⟩ (some ⟨5⟩), .call 0 ⟨1⟩ fun _ => none, .broadcast 0,
    .finish 0 true]
  let s := (run (step .plain) initialState ls).get rfl
  have htakes : Takes (step .plain) initialState (ls ++ [.leave 0 false none]) s
      (.leave 0 false none) := ⟨ls, [], rfl, rfl⟩
  obtain ⟨hname, _⟩ := hvalid _ s _ htakes _ _ _ _ rfl rfl rfl
  obtain ⟨hin, _⟩ := hname _ rfl
  exact absurd hin List.not_mem_nil

end JvmHookFramework
