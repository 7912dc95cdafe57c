/-
  Agent/Move.lean --- the cases of a move of an abstract thread.

  `Move` lists what a thread of the abstract agent can do, as `Step` does for the machine.
  Its invariants are about one thread, whatever the chain of hooks and the other threads
  are: an announcement of a call or of an exit stands on the activation it is about, no
  loop runs past its bound, and hooks that wait for an exit wait for that of a known target.
-/
import JvmHookFramework.Agent.Model

set_option autoImplicit false

namespace JvmHookFramework

open Foundation Foundation.SlotChain

namespace Agent

inductive Move (jvm : Jvm) (chain : List (Option Hooked)) (th : Thread) : Label → Thread → Prop where
  | called {t : Tid} {m : JmethodID} {frame : Locals} (halive : th.ended = false)
      (hquiet : th.announces jvm chain m = false) :
      Move jvm chain th (.call t m frame) { th with stack := .method m :: th.stack }
  | callAnnounced {t : Tid} {m : JmethodID} {frame : Locals} (halive : th.ended = false)
      (hannounces : th.announces jvm chain m = true) :
      Move jvm chain th (.call t m frame)
        (Thread.announce jvm { th with stack := .method m :: th.stack } m (hooksOf jvm chain m))
  | left {t : Tid} {popped : Bool} {value : Option Jvalue} {m : JmethodID} {rest : List Frame}
      (hstack : th.stack = .method m :: rest)
      (hquiet : ∀ hooks target count, th.pending = some hooks → th.target = some (target, count) →
        jvm.deref target = jvm.deref m → th.stack.any Frame.isExiting = true) :
      Move jvm chain th (.leave t popped value) { th with stack := rest }
  | exitAnnounced {t : Tid} {popped : Bool} {value : Option Jvalue} {m target : JmethodID}
      {rest : List Frame} {hooks : List (Option Obj)} {count : Nat}
      (hstack : th.stack = .method m :: rest) (hpending : th.pending = some hooks)
      (htarget : th.target = some (target, count)) (hkey : jvm.deref target = jvm.deref m)
      (hquiet : th.stack.any Frame.isExiting = false) :
      Move jvm chain th (.leave t popped value)
        { th with
          stack := .exiting ⟨exitMetadata jvm m target, hooks⟩ count 0 popped value ::
            .method m :: rest }
  | prepared {t : Tid} {klass : Klass} (halive : th.ended = false)
      (hquiet : th.announcesClass jvm klass = false) : Move jvm chain th (.prepare t klass) th
  | classAnnounced {t : Tid} {klass : Klass} (halive : th.ended = false)
      (hannounces : th.announcesClass jvm klass = true) :
      Move jvm chain th (.prepare t klass) { th with stack := .preparing :: th.stack }
  | starts {t : Tid} {r : Announcement} {rest : List Frame}
      (hstack : th.stack = .entering r none :: rest) :
      Move jvm chain th (.broadcast t) { th with stack := .entering r (some 0) :: rest }
  | entryCalls {t : Tid} {r : Announcement} {i : Nat} {rest : List Frame}
      (hstack : th.stack = .entering r (some i) :: rest) (hlt : i < r.hooks.length) :
      Move jvm chain th (.dispatch t) { th with stack := .entering r (some (i + 1)) :: rest }
  | exitCalls {t : Tid} {r : Announcement} {count i : Nat} {popped : Bool} {value : Option Jvalue}
      {rest : List Frame} (hstack : th.stack = .exiting r count i popped value :: rest)
      (hlt : i < count) :
      Move jvm chain th (.dispatch t)
        { th with stack := .exiting r count (i + 1) popped value :: rest }
  | entryEnds {t : Tid} {threw : Bool} {r : Announcement} {i : Nat} {m : JmethodID} {rest : List Frame}
      (hstack : th.stack = .entering r (some i) :: .method m :: rest)
      (hend : threw = true ∨ i = r.hooks.length) :
      Move jvm chain th (.finish t threw)
        { th with stack := .method m :: rest, pending := some r.hooks }
  | exitEnds {t : Tid} {threw : Bool} {r : Announcement} {count i : Nat} {popped : Bool}
      {value : Option Jvalue} {m : JmethodID} {rest : List Frame}
      (hstack : th.stack = .exiting r count i popped value :: .method m :: rest)
      (hend : threw = true ∨ i = count) :
      Move jvm chain th (.finish t threw) { th with stack := rest, pending := none }
  | prepareEnds {t : Tid} {threw : Bool} {rest : List Frame}
      (hstack : th.stack = .preparing :: rest) :
      Move jvm chain th (.finish t threw) { th with stack := rest }
  | ended {t : Tid} (hstack : th.stack = []) (halive : th.ended = false) :
      Move jvm chain th (.threadEnd t) { ended := true }

section

variable {jvm : Jvm} {chain : List (Option Hooked)} {th th' : Thread} {l : Label}

theorem leave_cases {t : Tid} {popped : Bool} {value : Option Jvalue} {m : JmethodID}
    {rest : List Frame} (hstack : th.stack = .method m :: rest)
    (h : th.leave jvm m rest popped value = some th') :
    Move jvm chain th (.leave t popped value) th' := by
  unfold Thread.leave at h
  split at h
  · rename_i hnone
    obtain rfl := Option.some.inj h
    refine .left hstack fun hooks _ _ hpending => ?_
    rw [hnone] at hpending
    cases hpending
  · cases h
  · rename_i hooks target count hpending htarget
    split at h
    · rename_i hguard
      obtain rfl := Option.some.inj h
      rw [Bool.and_eq_true, decide_eq_true_eq, Bool.not_eq_true'] at hguard
      exact .exitAnnounced hstack hpending htarget hguard.1 hguard.2
    · rename_i hguard
      obtain rfl := Option.some.inj h
      refine .left hstack fun _ target' _ _ htarget' hkey => ?_
      rw [htarget] at htarget'
      obtain rfl := (Prod.mk.inj (Option.some.inj htarget')).1
      simpa [hkey] using hguard

theorem dispatch_cases {t : Tid} (h : th.dispatch = some th') :
    Move jvm chain th (.dispatch t) th' := by
  unfold Thread.dispatch at h
  split at h
  · rename_i r i rest hstack
    split at h
    · rename_i hlt
      obtain rfl := Option.some.inj h
      exact .entryCalls hstack hlt
    · cases h
  · rename_i r count i popped value rest hstack
    split at h
    · rename_i hlt
      obtain rfl := Option.some.inj h
      exact .exitCalls hstack hlt
    · cases h
  · cases h

theorem finish_cases {t : Tid} {threw : Bool} (h : th.finish threw = some th') :
    Move jvm chain th (.finish t threw) th' := by
  unfold Thread.finish at h
  split at h
  · rename_i r i m rest hstack
    split at h
    · rename_i hend
      obtain rfl := Option.some.inj h
      exact .entryEnds hstack (by simpa using hend)
    · cases h
  · rename_i r count i popped value m rest hstack
    split at h
    · rename_i hend
      obtain rfl := Option.some.inj h
      exact .exitEnds hstack (by simpa using hend)
    · cases h
  · rename_i rest hstack
    obtain rfl := Option.some.inj h
    exact .prepareEnds hstack
  · cases h

/-- Every move is one of the cases. -/
theorem move_cases (h : th.move jvm chain l = some th') : Move jvm chain th l th' := by
  cases l with
  | register | unregister | native => cases h
  | call t m frame =>
      simp only [Thread.move, Thread.call] at h
      split at h
      · cases h
      · rename_i halive
        obtain rfl := Option.some.inj h
        split
        · rename_i hannounces
          exact .callAnnounced (eq_false_of_ne_true halive) hannounces
        · rename_i hquiet
          exact .called (eq_false_of_ne_true halive) (eq_false_of_ne_true hquiet)
  | leave t popped value =>
      simp only [Thread.move] at h
      split at h
      · rename_i m rest hstack
        exact leave_cases hstack h
      · cases h
  | prepare t klass =>
      simp only [Thread.move, Thread.prepare] at h
      split at h
      · cases h
      · rename_i halive
        obtain rfl := Option.some.inj h
        split
        · rename_i hannounces
          exact .classAnnounced (eq_false_of_ne_true halive) hannounces
        · rename_i hquiet
          exact .prepared (eq_false_of_ne_true halive) (eq_false_of_ne_true hquiet)
  | broadcast t =>
      simp only [Thread.move] at h
      split at h
      · rename_i r rest hstack
        obtain rfl := Option.some.inj h
        exact .starts hstack
      · cases h
  | dispatch t => exact dispatch_cases h
  | finish t threw => exact finish_cases h
  | threadEnd t =>
      simp only [Thread.move] at h
      split at h
      · rename_i hguard
        obtain rfl := Option.some.inj h
        rw [Bool.and_eq_true, List.isEmpty_iff, Bool.not_eq_true'] at hguard
        exact .ended hguard.1 hguard.2
      · cases h

/-! ## What every move keeps -/

/-- A frame with those below it. -/
def Frame.Grounded : Frame → List Frame → Prop
  | .method _, _ => True
  | .entering r next, below => (∀ i ∈ next, i ≤ r.hooks.length) ∧
      (∃ m rest, below = .method m :: rest) ∧
        below.any Frame.isEntering = false ∧ below.any Frame.isExiting = false
  | .exiting _ count i _ _, below => i ≤ count ∧ (∃ m rest, below = .method m :: rest) ∧
      below.any Frame.isExiting = false
  | .preparing, below => below.any Frame.isPreparing = false ∧ below.any Frame.isEntering = false

/-- Announcements stand on activations and on no announcement that keeps them from starting,
and loops are within their bounds. -/
def Grounded : List Frame → Prop
  | [] => True
  | f :: rest => f.Grounded rest ∧ Grounded rest

structure Thread.Ok (th : Thread) : Prop where
  grounded : Grounded th.stack
  /-- Hooks that wait were announced. -/
  announced : ∀ hooks, th.pending = some hooks → ∃ target count, th.target = some (target, count)
  /-- So was what is being announced. -/
  entering : th.stack.any Frame.isEntering = true →
    ∃ target count, th.target = some (target, count)

theorem Thread.ok_of_empty (hstack : th.stack = []) (hpending : th.pending = none) : th.Ok where
  grounded := by rw [hstack]; trivial
  announced := by simp [hpending]
  entering := by simp [hstack]

/-- No call is announced while a call or an exit is. -/
theorem Thread.quiet_of_announces {m : JmethodID} (h : th.announces jvm chain m = true) :
    th.stack.any Frame.isEntering = false ∧ th.stack.any Frame.isExiting = false := by
  unfold Thread.announces at h
  simp only [Bool.and_eq_true, Bool.not_eq_true'] at h
  exact ⟨h.1.1.2, h.1.2⟩

/-- No class is announced while a class or a call is. -/
theorem Thread.quiet_of_announcesClass {klass : Klass} (h : th.announcesClass jvm klass = true) :
    th.stack.any Frame.isPreparing = false ∧ th.stack.any Frame.isEntering = false := by
  unfold Thread.announcesClass at h
  simp only [Bool.and_eq_true, Bool.not_eq_true'] at h
  exact h.1

/-- A move that leaves what is pending and the target alone, and announces no call. -/
theorem Thread.Ok.of_stack {stack : List Frame} (h : th.Ok) (hgrounded : Grounded stack)
    (hsame : stack.any Frame.isEntering = true → th.stack.any Frame.isEntering = true) :
    Thread.Ok { th with stack := stack } :=
  ⟨hgrounded, h.announced, fun hentering => h.entering (hsame hentering)⟩

theorem Thread.Ok.move (h : th.Ok) (hmove : Move jvm chain th l th') : th'.Ok := by
  have hgrounded := h.grounded
  cases hmove with
  | called => exact h.of_stack ⟨trivial, hgrounded⟩ id
  | callAnnounced halive hannounces =>
      have hquiet := Thread.quiet_of_announces hannounces
      refine ⟨⟨⟨by simp, ⟨_, _, rfl⟩, hquiet.1, hquiet.2⟩, trivial, hgrounded⟩, ?_, ?_⟩
      · exact fun _ _ => ⟨_, _, rfl⟩
      · exact fun _ => ⟨_, _, rfl⟩
  | left hstack =>
      rw [hstack] at hgrounded
      exact h.of_stack hgrounded.2 fun hentering => by rw [hstack]; exact hentering
  | exitAnnounced hstack hpending htarget hkey hquiet =>
      rw [hstack] at hgrounded hquiet
      refine h.of_stack ⟨⟨Nat.zero_le _, ⟨_, _, rfl⟩, hquiet⟩, hgrounded⟩ fun hentering => ?_
      rw [hstack]
      exact hentering
  | prepared => exact h
  | classAnnounced halive hannounces =>
      exact h.of_stack ⟨Thread.quiet_of_announcesClass hannounces, hgrounded⟩ id
  | starts hstack =>
      rw [hstack] at hgrounded
      refine h.of_stack ⟨⟨fun i hi => ?_, hgrounded.1.2⟩, hgrounded.2⟩ fun _ => by rw [hstack]; rfl
      obtain rfl := Option.some.inj hi
      exact Nat.zero_le _
  | entryCalls hstack hlt =>
      rw [hstack] at hgrounded
      refine h.of_stack ⟨⟨fun i hi => ?_, hgrounded.1.2⟩, hgrounded.2⟩ fun _ => by rw [hstack]; rfl
      obtain rfl := Option.some.inj hi
      exact hlt
  | exitCalls hstack hlt =>
      rw [hstack] at hgrounded
      refine h.of_stack ⟨⟨hlt, hgrounded.1.2⟩, hgrounded.2⟩ fun hentering => ?_
      rw [hstack]
      exact hentering
  | entryEnds hstack =>
      rw [hstack] at hgrounded
      have htarget := h.entering (by rw [hstack]; rfl)
      exact ⟨hgrounded.2, fun _ _ => htarget, fun _ => htarget⟩
  | exitEnds hstack =>
      rw [hstack] at hgrounded
      refine ⟨hgrounded.2.2, by simp, fun hentering => h.entering ?_⟩
      rw [hstack]
      exact hentering
  | prepareEnds hstack =>
      rw [hstack] at hgrounded
      exact h.of_stack hgrounded.2 fun hentering => by rw [hstack]; exact hentering
  | ended => exact Thread.ok_of_empty rfl rfl

end

theorem ok_of_reachable {jvm : Jvm} {s : Compound (List (Option Hooked)) Thread Tid}
    (h : Reachable (machine jvm).step initial s) (t : Tid) : (s.part t).Ok :=
  Parts.part_invariant (fun _ _ _ _ hok hmove => hok.move (move_cases hmove))
    (fun _ => Thread.ok_of_empty rfl rfl) h t

end Agent

end JvmHookFramework
