/-
  Machine/Pairing.lean --- the post-hooks of a broadcast call.

  After an entry broadcast the record owes the activation its exit broadcast: `hooks` is
  the array of the activation and `targetMethod` its method.  The record has room for one
  such debt.  As long as the thread neither enters a further broadcast call nor calls the
  target method while the debt is open, every activation that was broadcast at its entry
  is broadcast at its exit, with its own hooks, and no other one is.
-/
import JvmHookFramework.Machine.ExitSnapshot

set_option autoImplicit false

namespace JvmHookFramework

open Foundation Foundation.GuardStack

/-! ## Debts on the stack -/

/-- The array that the activation of the frame was given by its entry broadcast. -/
def Frame.broadcast : Frame → Option ArrayId
  | .activation a => a.broadcast
  | .methodEntry _ | .methodExit _ | .classPrepare => none

/-- The arrays of the activations that were broadcast at their entry, the top first. -/
def broadcasts (frames : List Frame) : List ArrayId := frames.filterMap Frame.broadcast

@[simp] theorem broadcasts_nil : broadcasts [] = [] := rfl

@[simp] theorem broadcasts_activation (a : Activation) (rest : List Frame) :
    broadcasts (.activation a :: rest) = a.broadcast.toList ++ broadcasts rest := by
  unfold broadcasts
  cases hbroadcast : a.broadcast <;> simp [Frame.broadcast, hbroadcast]

@[simp] theorem broadcasts_methodEntry (c : EntryCall) (rest : List Frame) :
    broadcasts (.methodEntry c :: rest) = broadcasts rest := rfl

@[simp] theorem broadcasts_methodExit (c : ExitCall) (rest : List Frame) :
    broadcasts (.methodExit c :: rest) = broadcasts rest := rfl

@[simp] theorem broadcasts_classPrepare (rest : List Frame) :
    broadcasts (.classPrepare :: rest) = broadcasts rest := rfl

/-- The activation right below the topmost callback of kind `g` has the property. -/
def Below (g : Guard) (P : Activation → Prop) : List Frame → Prop
  | [] => True
  | f :: rest =>
      if f.guard = some g then ∃ a outer, rest = .activation a :: outer ∧ P a
      else Below g P rest

theorem below_cons_of_ne {g : Guard} {P : Activation → Prop} {f : Frame} {rest : List Frame}
    (h : f.guard ≠ some g) : Below g P (f :: rest) ↔ Below g P rest := by
  rw [Below, if_neg h]

theorem below_cons_self {g : Guard} {P : Activation → Prop} {f : Frame} {a : Activation}
    {rest : List Frame} (h : f.guard = some g) :
    Below g P (f :: .activation a :: rest) ↔ P a := by
  rw [Below, if_pos h]
  constructor
  · rintro ⟨a', outer, heq, hP⟩
    obtain rfl := Frame.activation.inj (List.cons.inj heq).1
    exact hP
  · exact fun hP => ⟨a, rest, rfl, hP⟩

@[simp] theorem below_activation {g : Guard} {P : Activation → Prop} {a : Activation}
    {rest : List Frame} : Below g P (.activation a :: rest) ↔ Below g P rest :=
  below_cons_of_ne (Option.some_ne_none g).symm

theorem below_classPrepare {g : Guard} {P : Activation → Prop} {rest : List Frame}
    (hg : g ≠ .broadcastingMethodPrepareLoad) :
    Below g P (.classPrepare :: rest) ↔ Below g P rest := by
  refine below_cons_of_ne fun heq => hg ?_
  exact (Option.some.inj heq).symm

/-- A callback that stands on a broadcast activation means a debt. -/
theorem broadcasts_ne_nil {g : Guard} {frames : List Frame} (hmem : g ∈ guards frames)
    (hbelow : Below g (fun a => a.broadcast ≠ none) frames) : broadcasts frames ≠ [] := by
  induction frames with
  | nil => exact absurd hmem List.not_mem_nil
  | cons f rest ih =>
      by_cases hhead : f.guard = some g
      · rw [Below, if_pos hhead] at hbelow
        obtain ⟨a, outer, rfl, hbroadcast⟩ := hbelow
        obtain ⟨array, harray⟩ := Option.ne_none_iff_exists'.mp hbroadcast
        cases f <;> simp [harray]
      · rw [below_cons_of_ne hhead] at hbelow
        have hrest : g ∈ guards rest := by
          obtain ⟨f', hf', hguard⟩ := mem_guards.mp hmem
          rcases List.mem_cons.mp hf' with rfl | hf'
          · exact absurd hguard hhead
          · exact mem_guards.mpr ⟨f', hf', hguard⟩
        have hne := ih hrest hbelow
        cases f with
        | activation a =>
            rw [broadcasts_activation]
            exact List.append_ne_nil_of_right_ne_nil _ hne
        | methodEntry c => exact hne
        | methodExit c => exact hne
        | classPrepare => exact hne

/-- The topmost broadcast activation is one of the method with key `key`, and no
activation above it is. -/
def Owes (jvm : Jvm) (key : Nat) : List Frame → Prop
  | [] => False
  | .activation a :: rest =>
      if a.broadcast = none then jvm.deref a.method ≠ key ∧ Owes jvm key rest
      else jvm.deref a.method = key
  | .methodEntry _ :: rest | .methodExit _ :: rest | .classPrepare :: rest => Owes jvm key rest

/-! ## The invariant -/

/-- What the record says about the stack as long as the debts are not disturbed. -/
structure Paired (jvm : Jvm) (info : HookInvokingInfo) (stack : List Frame) : Prop where
  /-- One debt at most, and it is the array in the record. -/
  owed : broadcasts stack = info.hooks.toList
  /-- Hooks of an entry run without a debt. -/
  entering : info.runningHook = true → info.hooks = none ∧
    Below .runningHook (fun a => info.targetMethod = some a.method) stack
  /-- An exit callback stands on the activation that it is for. -/
  exiting : info.exitingMethod = true →
    Below .exitingMethod (fun a => a.broadcast ≠ none) stack
  /-- An open debt is recognised by the method, and by no activation above it. -/
  open_debt : info.exitingMethod = false → info.hooks ≠ none →
    ∃ target, info.targetMethod = some target ∧ Owes jvm (jvm.deref target) stack

/-- The call disturbs an open debt: `hooks` is set and no exit callback runs, and the
call is going to be broadcast itself, or it is a call of the target method. -/
def CallDisturbs (jvm : Jvm) (t : Tid) (s : State) (l : Label) : Prop :=
  ∃ method frame, l = .call t method frame ∧ (s.info t).hooks ≠ none ∧
    (s.info t).exitingMethod = false ∧
    (EntryPasses jvm s t method ∨
      ∃ target, (s.info t).targetMethod = some target ∧ jvm.deref method = jvm.deref target)

section

variable {jvm : Jvm} {s s' : State} {t : Tid} {l : Label} {info : HookInvokingInfo}
  {stack : List Frame}

theorem paired_empty (jvm : Jvm) : Paired jvm {} [] where
  owed := rfl
  entering := fun h => absurd h Bool.false_ne_true
  exiting := fun h => absurd h Bool.false_ne_true
  open_debt := fun _ h => absurd rfl h

/-- The debt of the activation on top is the one in the record, and there is no other. -/
theorem hooks_of_broadcast {a : Activation} {rest : List Frame} {hooks : Option ArrayId}
    {array : ArrayId} (howed : broadcasts (.activation a :: rest) = hooks.toList)
    (harray : a.broadcast = some array) : hooks = some array ∧ broadcasts rest = [] := by
  rw [broadcasts_activation, harray, Option.toList_some, List.singleton_append] at howed
  cases hooks with
  | none => cases howed
  | some array' =>
      obtain ⟨rfl, hrest⟩ := List.cons.inj howed
      exact ⟨rfl, hrest⟩

/-- The activation on top of the stack, when its exit event does not pass the guards, was
not broadcast at its entry. -/
theorem Paired.broadcast_of_skipped {a : Activation} {rest : List Frame}
    (h : Paired jvm info (.activation a :: rest))
    (hexact : Exact info.flag (guards (.activation a :: rest)))
    (hguard : ExitSkipped jvm info a.method) : a.broadcast = none := by
  by_contra hbroadcast
  obtain ⟨array, harray⟩ := Option.ne_none_iff_exists'.mp hbroadcast
  obtain ⟨hhooks, hrest⟩ := hooks_of_broadcast h.owed harray
  -- a running exit callback would stand on a second debt
  have hexiting : info.exitingMethod = false := by
    by_contra hset
    rw [Bool.not_eq_false] at hset
    have hmem : Guard.exitingMethod ∈ guards rest := (hexact.set_iff .exitingMethod).mp hset
    exact broadcasts_ne_nil hmem (below_activation.mp (h.exiting hset)) hrest
  have hne : info.hooks ≠ none := by
    rw [hhooks]
    exact Option.some_ne_none array
  obtain ⟨target, htarget, howes⟩ := h.open_debt hexiting hne
  rw [Owes, if_neg hbroadcast] at howes
  rcases hguard with hnone | hset | ⟨target', htarget', hkey⟩
  · exact hne hnone
  · rw [hexiting] at hset
    exact Bool.false_ne_true hset
  · obtain rfl := Option.some.inj (htarget.symm.trans htarget')
    exact hkey howes.symm

/-- The activation on top of the stack, when its exit event passes the guards with an
array, was broadcast at its entry with that array. -/
theorem Paired.broadcast_of_passes {a : Activation} {rest : List Frame} {hooks : ArrayId}
    (h : Paired jvm info (.activation a :: rest))
    (hpasses : ExitPasses jvm info a.method hooks) : a.broadcast = some hooks := by
  obtain ⟨hhooks, hexiting, target, htarget, hkey⟩ := hpasses
  have hne : info.hooks ≠ none := by
    rw [hhooks]
    exact Option.some_ne_none hooks
  obtain ⟨target', htarget', howes⟩ := h.open_debt hexiting hne
  obtain rfl := Option.some.inj (htarget.symm.trans htarget')
  have hbroadcast : a.broadcast ≠ none := by
    intro hnone
    rw [Owes, if_pos hnone] at howes
    exact howes.1 hkey.symm
  obtain ⟨array, harray⟩ := Option.ne_none_iff_exists'.mp hbroadcast
  rw [harray, ← (hooks_of_broadcast h.owed harray).1, hhooks]

/-- A step that writes none of the fields, and changes the stack in a way the invariant
does not see. -/
theorem Paired.of_stack {stack' : List Frame} (h : Paired jvm info stack)
    (howed : broadcasts stack' = broadcasts stack)
    (hbelow : ∀ g P, g ≠ .broadcastingMethodPrepareLoad → Below g P stack → Below g P stack')
    (howes : ∀ target, info.exitingMethod = false → info.hooks ≠ none →
      info.targetMethod = some target →
      Owes jvm (jvm.deref target) stack → Owes jvm (jvm.deref target) stack') :
    Paired jvm info stack' where
  owed := howed.trans h.owed
  entering := fun hset =>
    ⟨(h.entering hset).1, hbelow _ _ (by decide) (h.entering hset).2⟩
  exiting := fun hset => hbelow _ _ (by decide) (h.exiting hset)
  open_debt := by
    intro hexiting hne
    obtain ⟨target, htarget, howed⟩ := h.open_debt hexiting hne
    exact ⟨target, htarget, howes target hexiting hne htarget howed⟩

theorem Paired.withLoad (h : Paired jvm info stack) (load : Bool) :
    Paired jvm { info with broadcastingMethodPrepareLoad := load } stack :=
  ⟨h.owed, h.entering, h.exiting, h.open_debt⟩

theorem Paired.entryBegins {c : EntryCall} {method : JmethodID} {frame : Locals}
    {callback : CallbackId} {hookCount : Nat} {array : ArrayId} (h : Paired jvm info stack)
    (hhooks : info.hooks = none) (hexiting : info.exitingMethod = false) :
    Paired jvm (info.entry jvm callback method hookCount array)
      (.methodEntry c :: .activation (entered method frame) :: stack) where
  owed := h.owed
  entering := fun _ => ⟨hhooks, (below_cons_self rfl).mpr rfl⟩
  exiting := fun hset => absurd (hexiting.symm.trans hset) Bool.false_ne_true
  open_debt := fun _ hne => absurd hhooks hne

theorem Paired.entryEnds {c : EntryCall} {a a' : Activation} {rest : List Frame}
    (h : Paired jvm info (.methodEntry c :: .activation a :: rest))
    (hexact : Exact info.flag (guards (.methodEntry c :: .activation a :: rest)))
    (hmethod : a'.method = a.method) (hbroadcast : a'.broadcast = some c.hookInstances) :
    Paired jvm { info with hooks := some c.hookInstances, runningHook := false }
      (.activation a' :: rest) where
  owed := by
    have hrunning := (hexact.set_iff .runningHook).mpr List.mem_cons_self
    have hnil := h.owed
    rw [(h.entering hrunning).1, broadcasts_methodEntry, broadcasts_activation] at hnil
    rw [broadcasts_activation, hbroadcast, (List.append_eq_nil_iff.mp hnil).2]
    rfl
  entering := fun hset => absurd hset Bool.false_ne_true
  exiting := by
    intro hset
    -- with no debt open no exit callback runs
    have hrunning := (hexact.set_iff .runningHook).mpr List.mem_cons_self
    have hmem := (hexact.set_iff .exitingMethod).mp hset
    have hne := broadcasts_ne_nil hmem (h.exiting hset)
    rw [h.owed, (h.entering hrunning).1] at hne
    exact absurd rfl hne
  open_debt := by
    intro _ _
    have hrunning := (hexact.set_iff .runningHook).mpr List.mem_cons_self
    refine ⟨a.method, (below_cons_self rfl).mp (h.entering hrunning).2, ?_⟩
    rw [Owes, hbroadcast, if_neg (Option.some_ne_none _), hmethod]

theorem Paired.exitBegins {c : ExitCall} {a : Activation} {rest : List Frame} {hooks : ArrayId}
    (h : Paired jvm info (.activation a :: rest))
    (hpasses : ExitPasses jvm info a.method hooks) :
    Paired jvm { info with exitingMethod := true }
      (.methodExit c :: .activation a :: rest) where
  owed := h.owed
  entering := by
    intro hset
    have hnone := (h.entering hset).1
    rw [hpasses.1] at hnone
    cases hnone
  exiting := by
    intro _
    refine (below_cons_self rfl).mpr ?_
    rw [h.broadcast_of_passes hpasses]
    exact Option.some_ne_none hooks
  open_debt := fun hclear => absurd hclear.symm Bool.false_ne_true

theorem Paired.exitEnds {c : ExitCall} {a : Activation} {rest : List Frame}
    (h : Paired jvm info (.methodExit c :: .activation a :: rest))
    (hexact : Exact info.flag (guards (.methodExit c :: .activation a :: rest))) :
    Paired jvm { info with hooks := none, exitingMethod := false } rest := by
  have hexiting := (hexact.set_iff .exitingMethod).mpr List.mem_cons_self
  have hbroadcast : a.broadcast ≠ none := (below_cons_self rfl).mp (h.exiting hexiting)
  obtain ⟨array, harray⟩ := Option.ne_none_iff_exists'.mp hbroadcast
  have htop : info.hooks = some array ∧ broadcasts rest = [] :=
    hooks_of_broadcast h.owed harray
  refine ⟨htop.2, fun hset => ?_, fun hset => absurd hset Bool.false_ne_true,
    fun _ hne => absurd rfl hne⟩
  have hnone := (h.entering hset).1
  rw [htop.1] at hnone
  cases hnone

theorem Paired.thread (h : Paired jvm (s.info t) (s.stack t))
    (hexact : Exact (s.info t).flag (s.running t)) (hquiet : ¬ CallDisturbs jvm t s l)
    (hthread : ThreadStep jvm s t l info stack) : Paired jvm info stack := by
  unfold State.running at hexact
  cases hthread with
  | idle => exact h
  | ended => exact paired_empty jvm
  | @called method frame hguard =>
      refine h.of_stack rfl (fun g P _ hbelow => below_activation.mpr hbelow) ?_
      intro target hexiting hne htarget howes
      refine ⟨fun hkey => hquiet ⟨method, frame, rfl, hne, hexiting, ?_⟩, howes⟩
      exact Or.inr ⟨target, htarget, hkey⟩
  | @entryBegins method frame c hpasses =>
      have hexiting := hpasses.flags.2
      have hnone : (s.info t).hooks = none := by
        by_contra hne
        exact hquiet ⟨method, frame, rfl, hne, hexiting, Or.inl hpasses⟩
      exact h.entryBegins hnone hexiting
  | left hstack hguard =>
      rw [hstack] at h hexact
      have hnone := h.broadcast_of_skipped hexact hguard
      refine h.of_stack ?_ (fun g P _ hbelow => below_activation.mp hbelow) ?_
      · rw [broadcasts_activation, hnone]
        rfl
      · intro target _ _ _ howes
        rw [Owes, if_pos hnone] at howes
        exact howes.2
  | exitBegins hstack hpasses =>
      rw [hstack] at h
      exact h.exitBegins hpasses
  | prepareBegins =>
      have hpushed : Paired jvm (s.info t) (.classPrepare :: s.stack t) := by
        refine h.of_stack rfl (fun g P hg hbelow => ?_) fun _ _ _ _ howes => howes
        exact (below_classPrepare hg).mpr hbelow
      exact hpushed.withLoad true
  | entryLoops hstack =>
      rw [hstack] at h
      exact h.of_stack rfl (fun _ _ _ hbelow => hbelow) fun _ _ _ _ howes => howes
  | exitLoops hstack =>
      rw [hstack] at h
      exact h.of_stack rfl (fun _ _ _ hbelow => hbelow) fun _ _ _ _ howes => howes
  | entryEnds hstack hmethod hbroadcast =>
      rw [hstack] at h hexact
      exact h.entryEnds hexact hmethod hbroadcast
  | exitEnds hstack =>
      rw [hstack] at h hexact
      exact h.exitEnds hexact
  | prepareEnds hstack =>
      rw [hstack] at h
      have hpopped : Paired jvm (s.info t) stack := by
        refine h.of_stack rfl (fun g P hg hbelow => ?_) fun _ _ _ _ howes => howes
        exact (below_classPrepare hg).mp hbelow
      exact hpopped.withLoad false

theorem paired_of_undisturbed {ls : List Label} (hrun : run (step jvm) initialState ls = some s)
    (hquiet : ∀ s₁ l, Takes (step jvm) initialState ls s₁ l → ¬ CallDisturbs jvm t s₁ l) :
    Paired jvm (s.info t) (s.stack t) := by
  let inv : State → Prop := fun s => s.Guarded ∧ Paired jvm (s.info t) (s.stack t)
  have hboth : inv s := by
    refine @run_invariant_of_takes _ _ _ inv (fun s l => ¬ CallDisturbs jvm t s l) ?_ _ _ _
      ⟨initialState_guarded, paired_empty jvm⟩ hrun hquiet
    intro s₁ l s₂ hinv hok hstep
    exact ⟨hinv.1.step hstep, hinv.2.thread (hinv.1 t) hok ((step_cases hstep).thread t)⟩
  exact hboth.2

/-! ## Entries and exits -/

/-- If the step is the exit event of an activation: when the activation was broadcast at
its entry, an exit broadcast with the hooks collected at that entry starts on it, all of
them and no more; otherwise the activation goes without one. -/
def ExitPaired (jvm : Jvm) (t : Tid) (s : State) (l : Label) : Prop :=
  ∀ popped value a rest s', l = .leave t popped value → step jvm s l = some s' →
    s.stack t = .activation a :: rest →
    (∀ array, a.broadcast = some array → ∃ c m, s'.stack t = .methodExit c :: s.stack t ∧
      c.pointer = array ∧ s.snapshot array = some m ∧ c.size = m.array.cells.length) ∧
    (a.broadcast = none → s'.stack t = rest)

theorem Paired.exitPaired (h : Paired jvm (s.info t) (s.stack t))
    (hexact : Exact (s.info t).flag (s.running t))
    (hrecord : RecordOk s (s.info t) (s.stack t)) : ExitPaired jvm t s l := by
  rintro popped value a rest s' rfl hstep hstack
  unfold State.running at hexact
  rw [hstack] at h hexact
  cases step_cases hstep with
  | @leaveSkipped _ _ _ a' rest' hframes hguard =>
      obtain ⟨heq, rfl⟩ := List.cons.inj (hframes.symm.trans hstack)
      obtain rfl := Frame.activation.inj heq
      have hnone := h.broadcast_of_skipped hexact hguard
      refine ⟨fun array harray => ?_, fun _ => State.stack_setThread_self s t _⟩
      rw [hnone] at harray
      cases harray
  | @leaveBroadcast _ _ _ a' rest' hooks hframes hpasses =>
      obtain ⟨heq, rfl⟩ := List.cons.inj (hframes.symm.trans hstack)
      obtain rfl := Frame.activation.inj heq
      have hsome := h.broadcast_of_passes hpasses
      have hrunning : (s.info t).runningHook = false := by
        by_contra hset
        have hnone := (h.entering (Bool.eq_true_of_not_eq_false hset)).1
        rw [hpasses.1] at hnone
        cases hnone
      obtain ⟨_, m, hm, _, hcount⟩ := hrecord.outside hrunning hooks hpasses.1
      refine ⟨fun array harray => ?_, fun hnone => ?_⟩
      · obtain rfl := Option.some.inj (hsome.symm.trans harray)
        obtain ⟨c, hc, hpointer, hsize⟩ := onMethodExit.stack_begin jvm s t a' rest' hooks _ _
        exact ⟨c, m, hc.trans (congrArg _ hstack.symm), hpointer, hm, hsize.trans hcount⟩
      · rw [hsome] at hnone
        cases hnone

end

/-- In a run in which no call disturbs an open debt of `t`, every activation of `t` that
was broadcast at its entry is broadcast at its exit with the hooks of that entry, and no
other activation is. -/
theorem exits_paired_of_undisturbed (jvm : Jvm) (t : Tid) (ls : List Label)
    (hquiet : ∀ s l, Takes (step jvm) initialState ls s l → ¬ CallDisturbs jvm t s l) :
    ∀ s l, Takes (step jvm) initialState ls s l → ExitPaired jvm t s l := by
  intro s l htakes
  obtain ⟨before, after, rfl, hrun⟩ := htakes
  have hpaired : Paired jvm (s.info t) (s.stack t) := by
    refine paired_of_undisturbed hrun fun s₁ l₁ hearlier => hquiet s₁ l₁ ?_
    obtain ⟨first, second, rfl, hfirst⟩ := hearlier
    exact ⟨first, second ++ l :: after, by simp, hfirst⟩
  have hreachable : Reachable (step jvm) initialState s := ⟨before, hrun⟩
  exact hpaired.exitPaired (guarded_of_reachable hreachable t)
    (recordOk_of_reachable hreachable t)

/-- A hooked method is called and returns. -/
theorem exits_paired_of_undisturbed_single :
    ∃ s s' c, Takes (step .plain) initialState
        [.register ⟨1⟩ (some ⟨5⟩), .call 0 ⟨1⟩ fun _ => none, .broadcast 0, .finish 0 true,
          .leave 0 false none] s (.leave 0 false none) ∧
      step .plain s (.leave 0 false none) = some s' ∧
      s'.stack 0 = .methodExit c :: s.stack 0 ∧ c.pointer = 0 := by
  let ls : List Label := [.register ⟨1⟩ (some ⟨5⟩), .call 0 ⟨1⟩ fun _ => none, .broadcast 0,
    .finish 0 true, .leave 0 false none]
  let s := (run (step .plain) initialState (ls.take 4)).get rfl
  let s' := (step .plain s (.leave 0 false none)).get rfl
  have htakes : Takes (step .plain) initialState ls s (.leave 0 false none) :=
    ⟨ls.take 4, [], rfl, rfl⟩
  have hquiet : ∀ s₁ l, Takes (step .plain) initialState ls s₁ l →
      ¬ CallDisturbs .plain 0 s₁ l := by
    have hnocall : ∀ {s₁ : State} {l : Label}, (∀ method frame, l ≠ .call 0 method frame) →
        ¬ CallDisturbs .plain 0 s₁ l :=
      fun hne ⟨method, frame, hl, _⟩ => hne method frame hl
    refine forall_takes_cons rfl (hnocall (by simp)) ?_
    refine forall_takes_cons rfl (fun ⟨_, _, _, hne, _⟩ => hne rfl) ?_
    refine forall_takes_cons rfl (hnocall (by simp)) ?_
    refine forall_takes_cons rfl (hnocall (by simp)) ?_
    refine forall_takes_cons rfl (hnocall (by simp)) ?_
    exact fun _ _ hnone => absurd hnone takes_nil
  have hpaired := exits_paired_of_undisturbed .plain 0 ls hquiet s _ htakes
  obtain ⟨c, m, hc, hpointer, _⟩ := (hpaired false none _ _ s' rfl rfl rfl).1 0 rfl
  exact ⟨s, s', c, htakes, rfl, hc, hpointer⟩

/-- A hooked method calls another hooked method and returns after it. -/
def nestedHookedRun : List Label :=
  [.register ⟨1⟩ (some ⟨5⟩), .register ⟨2⟩ (some ⟨6⟩),
    .call 0 ⟨1⟩ fun _ => none, .broadcast 0, .dispatch 0, .finish 0 false,
    .call 0 ⟨2⟩ fun _ => none, .broadcast 0, .dispatch 0, .finish 0 false,
    .leave 0 false none, .dispatch 0, .finish 0 false, .leave 0 false none]

/-- The exit of the outer method is not broadcast. -/
theorem exit_unpaired_in_nestedHookedRun :
    ¬ ∀ ls s l, Takes (step .plain) initialState ls s l → ExitPaired .plain 0 s l := by
  intro hpaired
  let s := (run (step .plain) initialState (nestedHookedRun.take 13)).get rfl
  let s' := (step .plain s (.leave 0 false none)).get rfl
  have htakes : Takes (step .plain) initialState nestedHookedRun s (.leave 0 false none) :=
    ⟨nestedHookedRun.take 13, [], rfl, rfl⟩
  obtain ⟨c, m, hc, _⟩ := (hpaired _ s _ htakes false none _ _ s' rfl rfl rfl).1 0 rfl
  have hempty : s'.stack 0 = [] := rfl
  rw [hempty] at hc
  cases hc

end JvmHookFramework
