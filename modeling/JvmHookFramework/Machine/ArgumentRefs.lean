/-
  Machine/ArgumentRefs.lean --- the references that `putObject` creates.

  A replaced reference is deleted by the next `putObject`, and the others by the
  write-back loop, each after it was stored into the frame.
-/
import JvmHookFramework.Machine.RefHistory
import JvmHookFramework.Machine.Rewriting

set_option autoImplicit false

namespace JvmHookFramework

open Foundation ArgumentsNative

/-- `DeleteGlobalRef` was not applied to the reference. -/
def JniRefs.Undeleted (refs : JniRefs) : Jobject → Prop
  | .null => True
  | .localRef o => some (.localRef o) ∉ refs.misused
  | .globalRef r => refs.table.Live r

/-- The references of the arguments that the hooks of the entry callback `c` rewrote: the
callback is run over the frame of `a` and ends between `s₁` and `s₂`. -/
structure ArgumentRefs (jvm : Jvm) (ls : List Label) (c : CallbackId) (a : Activation)
    (s₁ s₂ : State) : Prop where
  /-- What `putObject` created is deleted once. -/
  deletedOnce : ∀ r, .created r ∈ refHistory jvm (c, .put) ls →
    s₂.refs.table.deletes.count r = 1
  /-- What `SetLocalObject` gets is a reference that was not deleted, neither by the hooks
  nor for a cell before. -/
  written : ∀ cb before p after, s₁.callbacks[c]? = some cb →
    cb.parameters = before ++ p :: after → p.edited = true → p.type = JVM_SIGNATURE_CLASS →
      ∃ jo, p.value = some jo ∧ (writeParameters before a.frame s₁.refs).2.Undeleted jo
  /-- What a `getAsObject` returned was not deleted when it returned. -/
  read : ∀ s h index jo s', Takes (step jvm) initialState ls s (.native h (.get .getAsObject index)) →
    s.address h = some c →
      s.native h (.get .getAsObject index) = some (.value (some (.l jo)), s') →
        s.refs.Undeleted jo
  /-- What was deleted `NewGlobalRef` had returned. -/
  deletes : s₂.refs.misused = [] ∧ ∀ r ∈ s₂.refs.table.deletes, r < s₂.refs.table.next

section

variable {jvm : Jvm} {s s' : State} {t : Tid} {c : CallbackId} {cb : Callback}

theorem getAsObject_eq {table : Option (List CallParameter)} {size index : Int} {jo : Jobject}
    (h : getAsObject table size index = .value (some (.l jo))) :
    jo = .null ∨ ∃ p ∈ table.getD [], p.type = JVM_SIGNATURE_CLASS ∧ p.value = some jo := by
  unfold getAsObject getAs at h
  split at h
  · exact Or.inl (by simpa using h.symm)
  · split at h
    · exact Or.inl (by simpa using h.symm)
    · rename_i cells
      split at h
      · split at h
        · cases h
        · rename_i p hp
          split at h
          · cases h
          · rename_i htype
            refine Or.inr ⟨p, List.mem_of_getElem? hp, not_not.mp htype, ?_⟩
            simpa using h
      · exact Or.inl (by simpa using h.symm)

/-- What a cell of a running callback holds is not deleted. -/
theorem ReferencesOk.undeleted (h : ReferencesOk s) (hcb : s.callbacks[c]? = some cb)
    (hrunning : cb.returned = false) {p : CallParameter} (hp : p ∈ cb.parameters)
    (htype : p.type = JVM_SIGNATURE_CLASS) {jo : Jobject} (hjo : p.value = some jo) :
    s.refs.Undeleted jo := by
  have hkeeps := (h.keeps cb (List.mem_of_getElem? hcb)).table p hp htype
  cases jo with
  | null => trivial
  | localRef o =>
      unfold JniRefs.Undeleted
      rw [h.refs.misused]
      exact List.not_mem_nil
  | globalRef r =>
      have hedited : p.edited = true := by
        by_contra hunedited
        rw [if_neg hunedited, hjo] at hkeeps
        cases hkeeps
      have howned : r ∈ p.owned := by
        unfold CallParameter.owned
        rw [if_pos ⟨hedited, htype⟩, hjo]
        exact List.mem_singleton_self r
      refine h.refs.custody.live (c, .put) r ?_
      rw [State.holds_of_running hcb hrunning]
      exact List.mem_flatMap.mpr ⟨p, hp, howned⟩

/-- What `getAsObject` returns is not deleted. -/
theorem ReferencesOk.undeleted_read (h : ReferencesOk s) {x : HandleId} {index : Int}
    {jo : Jobject}
    (hnative : s.native x (.get .getAsObject index) = some (.value (some (.l jo)), s')) :
    s.refs.Undeleted jo := by
  generalize hresult : Result.value (some (.l jo)) = result at hnative
  cases nativeCall_of_eq hnative with
  | @inert o _ _ _ hcall =>
      obtain rfl := HandleOp.call_of_null hcall
      obtain rfl : jo = .null := by simpa [HandleOp.inert] using hresult
      trivial
  | @live o c cb outcome _ _ hcb hrunning hcall =>
      cases hcls : o.cls with
      | argumentsNative size thisObj =>
          rw [hcls] at hcall
          obtain rfl := Option.some.inj hcall
          have hread : getAsObject (some cb.parameters) size index = .value (some (.l jo)) :=
            hresult.symm
          rcases getAsObject_eq hread with rfl | ⟨p, hp, htype, hjo⟩
          · trivial
          · exact h.undeleted hcb hrunning hp htype hjo
      | _ =>
          rw [hcls] at hcall
          cases hcall

/-- What `SetLocalObject` gets is not deleted. -/
theorem ReferencesOk.undeleted_written (h : ReferencesOk s) (hcb : s.callbacks[c]? = some cb)
    (hrunning : cb.returned = false) {before after : List CallParameter} {p : CallParameter}
    (hsplit : cb.parameters = before ++ p :: after) (hedited : p.edited = true)
    (htype : p.type = JVM_SIGNATURE_CLASS) (frame : Locals) :
    ∃ jo, p.value = some jo ∧ (writeParameters before frame s.refs).2.Undeleted jo := by
  have htable := (h.keeps cb (List.mem_of_getElem? hcb)).table
  have hp : p ∈ cb.parameters := by
    rw [hsplit]
    exact List.mem_append_right before List.mem_cons_self
  have hbefore : ∀ q ∈ before, q.Keeps := by
    intro q hq
    apply htable
    rw [hsplit]
    exact List.mem_append_left _ hq
  have hkeeps := htable p hp htype
  rw [if_pos hedited] at hkeeps
  rw [writeParameters_refs hbefore]
  rcases hvalue : p.value with _ | (_ | o | r) <;> rw [hvalue] at hkeeps
  · exact hkeeps.elim
  · exact ⟨.null, rfl, trivial⟩
  · exact hkeeps.elim
  · refine ⟨.globalRef r, rfl, RefTable.live_deleteAll.mpr ⟨?_, fun hr => ?_⟩⟩
    · exact h.undeleted hcb hrunning hp htype hvalue
    · -- no other cell holds the reference
      have howned : r ∈ p.owned := by
        unfold CallParameter.owned
        rw [if_pos ⟨hedited, htype⟩, hvalue]
        exact List.mem_singleton_self r
      have hnodup := h.refs.custody.exclusive.nodup (c, .put)
      rw [State.holds_of_running hcb hrunning] at hnodup
      simp only [Callback.holds, ownedBy, hsplit, List.flatMap_append, List.flatMap_cons] at hnodup
      exact hnodup.disjoint hr (List.mem_append_left _ howned)

end

/-! ## The end of the callback -/

/-- At the end of every entry callback each reference that `putObject` calls on its objects
have created is deleted once, `SetLocalObject` and the callers of `getAsObject` were given
no deleted reference, and nothing but global references was deleted. -/
theorem argument_refs (jvm : Jvm) (ls : List Label) (t : Tid) (threw : Bool) (c : CallbackId)
    (a a' : Activation) (s₁ s₂ : State) (hends : EntryEnds jvm ls t threw c a a' s₁ s₂) :
    ArgumentRefs jvm ls c a s₁ s₂ := by
  obtain ⟨hrun, ⟨e, rest, rfl, hstack, _⟩, hfinish⟩ := hends
  have hreachable : Reachable (step jvm) initialState s₁ := ⟨ls, hrun⟩
  have hhandles := handlesOk_of_reachable hreachable
  have hok := referencesOk_of_reachable hreachable
  have hok' := referencesOk_of_reachable (hreachable.tail hfinish)
  have hrefs := (step_cases hfinish).refsEnd hok hhandles hstack rfl
  refine ⟨fun r hr => ?_, fun cb before p after hcb hsplit hedited htype => ?_,
    fun s x index jo s' htakes _ hnative => ?_, hok'.refs.misused,
    hok'.refs.custody.balanced.created⟩
  · apply List.count_eq_one_of_mem hok'.refs.custody.balanced.nodup
    rcases created_of_run hrun (hhandles.not_returned hstack rfl) hr with hheld | hreplaced
    · rw [hrefs.deletes, List.mem_append, List.mem_append]
      exact Or.inl (Or.inr hheld)
    · exact hrefs.mem_deletes_of_mem ((tracked_of_run hrun).replaced r hreplaced).1
  · exact hok.undeleted_written hcb (hhandles.running_top hstack rfl hcb) hsplit hedited htype
      a.frame
  · exact (referencesOk_of_reachable htakes.reachable).undeleted_read hnative

/-! ## A run -/

/-- A machine whose methods are all `static void m(Object)`, for a class `Object`. -/
def Jvm.plainTakesObject : Jvm :=
  { Jvm.plain with methodDesc := fun _ => ['(', 'L', 'O', ';', ')', 'V'] }

def objectFrame : Locals := fun slot => if slot = 0 then some (.object (some ⟨7⟩)) else none

/-- A method is hooked and called, and the hook puts two objects and null into its argument,
which it reads before and between. -/
def putObjectsRun : List Label :=
  [.register ⟨1⟩ (some ⟨5⟩), .call 0 ⟨1⟩ objectFrame, .broadcast 0, .dispatch 0,
    .native 0 (.get .getAsObject 0), .native 0 (.put (.putObject (some ⟨8⟩)) 0),
    .native 0 (.get .getAsObject 0), .native 0 (.put (.putObject none) 0),
    .native 0 (.put (.putObject (some ⟨9⟩)) 0)]

/-- The first reference is replaced by null, and the last one is deleted at the end, which
the hook brings about with an exception. -/
theorem argument_refs_replaced :
    ∃ a' s₁ s₂, EntryEnds .plainTakesObject putObjectsRun 0 true 0 (entered ⟨1⟩ objectFrame)
        a' s₁ s₂ ∧
      ArgumentRefs .plainTakesObject putObjectsRun 0 (entered ⟨1⟩ objectFrame) s₁ s₂ ∧
      s₂.refs.table.deletes = [0, 1] := by
  refine ⟨_, _, _, ⟨rfl, ⟨_, _, rfl, rfl, rfl⟩, rfl⟩, ?_, rfl⟩
  exact argument_refs .plainTakesObject putObjectsRun 0 true 0 (entered ⟨1⟩ objectFrame) _ _ _
    ⟨rfl, ⟨_, _, rfl, rfl, rfl⟩, rfl⟩

end JvmHookFramework
