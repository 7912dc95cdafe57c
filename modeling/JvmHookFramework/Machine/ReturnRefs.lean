/-
  Machine/ReturnRefs.lean --- the references that `returnObject` creates.

  A replaced reference is deleted by the next `returnObject`.  The last one is deleted at
  the end of the callback, behind `ForceEarlyReturnObject` and nowhere else, so it stays
  when the method is not taken to return a reference.
-/
import JvmHookFramework.Machine.RefHistory
import JvmHookFramework.Machine.Returns

set_option autoImplicit false

namespace JvmHookFramework

open Foundation ForceEarlyReturnNative

/-- The references of the returns that the hooks of the callback `c` asked for: the callback
is run by `t` and ends between `s₁` and `s₂`. -/
structure ReturnRefs (jvm : Jvm) (ls : List Label) (t : Tid) (c : CallbackId) (s₁ s₂ : State) :
    Prop where
  /-- What `returnObject` created is deleted once. -/
  deletedOnce : ∀ r, .created r ∈ refHistory jvm (c, .ret) ls →
    s₂.refs.table.deletes.count r = 1
  /-- Until the callback ends, it is deleted only when a later `returnObject` replaces it. -/
  kept : ∀ r, .created r ∈ refHistory jvm (c, .ret) ls → r ∈ s₁.refs.table.deletes →
    .replaced r ∈ refHistory jvm (c, .ret) ls
  /-- Nothing else is replaced. -/
  replaced : ∀ r, .replaced r ∈ refHistory jvm (c, .ret) ls →
    .created r ∈ refHistory jvm (c, .ret) ls
  /-- At its end the callback deletes the rewritten arguments, and then only what it has
  handed to `ForceEarlyReturnObject`, which was not deleted by then. -/
  handed : ∃ arguments forced calls, (s₂.threads t).forced = (s₁.threads t).forced ++ calls ∧
    s₂.refs.table.deletes = s₁.refs.table.deletes ++ arguments ++ forced ∧
    (∀ r ∈ arguments, .created r ∈ refHistory jvm (c, .put) ls) ∧
    ∀ r ∈ forced, .created r ∈ refHistory jvm (c, .ret) ls ∧
      .ForceEarlyReturnObject (some (.globalRef r)) ∈ calls ∧
      (s₁.refs.table.deleteAll arguments).Live r
  /-- Nothing but global references was deleted. -/
  misused : s₂.refs.misused = []

/-- The argument of a `returnObject`. -/
def ForceEarlyReturnNative.ReturnOp.object? : ReturnOp → Option (Option Obj)
  | .returnObject value => some value
  | _ => none

/-- The callback takes the method to return a reference, or no reference is left: the last
`returnObject`, if there is one, passes null. -/
def ReturnsReleased (d : MethodDescriptor) (log : List ReturnOp) : Prop :=
  TakenForReference (charAt d.render (exitReturnIndex d.render)) ∨
    (lastSome ReturnOp.object? log).getD none = none

/-- Without a `)` in the class names of the parameters it is the declared return type that
decides. -/
theorem takenForReference_iff {d : MethodDescriptor} (hplain : d.Plain) :
    TakenForReference (charAt d.render (exitReturnIndex d.render)) ↔
      d.ret.map FieldType.kind = some .object := by
  have hchar : charAt d.render (exitReturnIndex d.render) = returnTag d.ret :=
    charAt_pastEnd hplain (Or.inl rfl)
  rw [hchar]
  cases d.ret with
  | none => decide
  | some t =>
      cases t with
      | object name => exact iff_of_true List.mem_cons_self rfl
      | array component => exact iff_of_true (List.mem_cons_of_mem _ List.mem_cons_self) rfl
      | _ => exact iff_of_false (by decide) nofun

/-! ## What the record holds -/

theorem ForceEarlyReturnNative.ReturnOp.storedAs_object (op : ReturnOp) :
    op.storedAs .object = op.object?.map .object := by
  cases op <;> rfl

section

variable {jvm : Jvm} {s s' : State} {t : Tid} {c : CallbackId} {cb : Callback}
  {refs : JniRefs} {log : List ReturnOp} {record : CallParameter}

/-- The record holds a reference exactly when the last `returnObject` passed an object. -/
theorem ForceOk.globals_eq_nil_iff (h : ForceOk refs log record) (hrecord : Deletable record.value) :
    globals record.value = [] ↔ (lastSome ReturnOp.object? log).getD none = none := by
  have hholds := h.holds .object
  rw [lastSome_congr fun op _ => op.storedAs_object, lastSome_map] at hholds
  have hread : record.value.map refs.denote =
      some ((lastSome ReturnOp.object? log).getD none) := by
    rcases hlast : lastSome ReturnOp.object? log with _ | value <;> rw [hlast] at hholds
    all_goals
      obtain ⟨jo, hjo, hdenote⟩ := Option.map_eq_some_iff.mp hholds
      rw [hjo, Option.map_some]
      exact congrArg some (Local.object.inj hdenote)
  obtain ⟨jo, hjo, hdenote⟩ := Option.map_eq_some_iff.mp hread
  rw [← hdenote]
  rw [hjo] at hrecord ⊢
  cases jo with
  | null => exact iff_of_true rfl rfl
  | localRef o => exact hrecord.elim
  | globalRef r =>
      have hknown : r < refs.table.objs.length := h.known _ hjo
      refine iff_of_false (List.cons_ne_nil r []) ?_
      have hsome : refs.table.get? r = some refs.table.objs[r] := List.getElem?_eq_getElem hknown
      exact fun hnone => nomatch hsome.symm.trans hnone

/-- The switch hands what it deletes to `ForceEarlyReturnObject`. -/
theorem forceReturn_handed {ch : Char} (ht : TakenForReference ch) {r : Nat}
    (hr : r ∈ globals record.value) (hedited : record.edited = false → record.value = some .null) :
    .ForceEarlyReturnObject (some (.globalRef r)) ∈ (forceReturn ch record refs).1 := by
  have hvalue : record.value = some (.globalRef r) := by
    rcases hv : record.value with _ | (_ | o | q) <;> rw [hv] at hr
    · cases hr
    · cases hr
    · cases hr
    · rw [List.mem_singleton.mp hr]
  have hset : record.edited = true := by
    by_contra hunset
    cases hvalue.symm.trans (hedited (eq_false_of_ne_true hunset))
  have hcalls : (forceReturn ch record refs).1 = [.ForceEarlyReturnObject record.value] := by
    unfold forceReturn
    rw [if_pos hset]
    exact congrArg Prod.fst (if_pos ht)
  rw [hcalls, hvalue]
  exact List.mem_singleton_self _

/-- The same for a callback that runs. -/
theorem holds_ret_eq_nil_iff {ls : List Label} (hrun : run (step jvm) initialState ls = some s)
    (hcb : s.callbacks[c]? = some cb) (hrunning : cb.returned = false) :
    s.holds (c, .ret) = [] ↔
      (lastSome ReturnOp.object? (returnsOf (callsOn jvm c ls))).getD none = none := by
  have hkeeps := (referencesOk_of_reachable ⟨ls, hrun⟩).keeps cb (List.mem_of_getElem? hcb)
  rw [State.holds_of_running hcb hrunning]
  exact ((callbackOk_of_run hrun).force cb hcb).globals_eq_nil_iff hkeeps.force

/-! ## The end of the callback -/

theorem Frame.returnChar_eq {d : MethodDescriptor} {method : JmethodID}
    (hdesc : jvm.methodDesc method = d.render) (f : Frame) :
    f.returnChar jvm method = charAt d.render (exitReturnIndex d.render) := by
  unfold Frame.returnChar
  rw [hdesc]
  cases f <;> rfl

/-- What the end of the callback deletes for a purpose, the callback has held for it. -/
theorem State.mem_holds_of_gone {f : Frame} {a : Activation} {k : Purpose} {r : Nat}
    (hr : r ∈ s.gone jvm f a c k) : r ∈ s.holds (c, k) := by
  rcases s.gone_cases jvm f a c k with hall | hnone
  · exact hall ▸ hr
  · rw [hnone] at hr
    cases hr

theorem State.taken_of_gone {f : Frame} {a : Activation} {r : Nat}
    (hr : r ∈ s.gone jvm f a c .ret) : TakenForReference (f.returnChar jvm a.method) := by
  by_contra ht
  rw [State.gone, if_neg ht] at hr
  cases hr

/-- The reference in the record is not one of the arguments. -/
theorem RefsOk.not_gone_put {f : Frame} {a : Activation} (h : RefsOk s.refs s.holds) {r : Nat}
    (hr : r ∈ s.holds (c, .ret)) : r ∉ s.gone jvm f a c .put := by
  intro hput
  cases h.custody.exclusive.one_owner (State.mem_holds_of_gone hput) hr

/-- When the rewritten arguments are deleted, the reference in the record is still live. -/
theorem RefsOk.live_gone_ret {f : Frame} {a : Activation} (h : RefsOk s.refs s.holds) {r : Nat}
    (hr : r ∈ s.gone jvm f a c .ret) :
    (s.refs.table.deleteAll (s.gone jvm f a c .put)).Live r := by
  have hheld : r ∈ s.holds (c, .ret) := State.mem_holds_of_gone hr
  exact RefTable.live_deleteAll.mpr ⟨h.custody.live (c, .ret) r hheld, h.not_gone_put hheld⟩

/-- The end of the callback hands what it deletes from the record to
`ForceEarlyReturnObject`. -/
theorem State.handed_of_gone {f : Frame} {a : Activation} {ch : Char} {r : Nat}
    (hcb : s.callbacks[c]? = some cb) (hrunning : cb.returned = false)
    (hkeeps : cb.Keeps) (hch : f.returnChar jvm a.method = ch)
    (hr : r ∈ s.gone jvm f a c .ret) :
    .ForceEarlyReturnObject (some (.globalRef r)) ∈ (forceReturn ch cb.returnForce refs).1 := by
  have ht : TakenForReference ch := hch ▸ State.taken_of_gone hr
  have hheld : r ∈ s.holds (c, .ret) := State.mem_holds_of_gone hr
  rw [State.holds_of_running hcb hrunning] at hheld
  exact forceReturn_handed ht hheld hkeeps.unedited

/-- The reference in the record is deleted when the method is taken to return one. -/
theorem RefsEnd.mem_deletes_iff {f : Frame} {a : Activation} (h : RefsEnd jvm s s' f a c)
    (hok : RefsOk s.refs s.holds) {r : Nat} (hr : r ∈ s.holds (c, .ret)) :
    r ∈ s'.refs.table.deletes ↔ TakenForReference (f.returnChar jvm a.method) := by
  rw [h.deletes, List.mem_append, List.mem_append]
  constructor
  · rintro ((hold | hput) | hret)
    · exact absurd hold (hok.custody.live (c, .ret) r hr).2
    · exact absurd hput (hok.not_gone_put hr)
    · exact State.taken_of_gone hret
  · intro ht
    refine Or.inr ?_
    rw [State.gone, if_pos ht]
    exact hr

end

/-- At the end of every callback of a method with a legal descriptor the references that
`returnObject` calls on its objects have created are balanced exactly when the last of them
is deleted with the forced return, or was null. -/
theorem return_refs_iff (jvm : Jvm) (ls : List Label) (t : Tid) (threw : Bool) (c : CallbackId)
    (a : Activation) (s₁ s₂ : State) (d : MethodDescriptor)
    (hends : CallbackEnds jvm ls t threw c a s₁ s₂)
    (hdesc : jvm.methodDesc a.method = d.render) :
    ReturnRefs jvm ls t c s₁ s₂ ↔ ReturnsReleased d (returnsOf (callsOn jvm c ls)) := by
  obtain ⟨hrun, ⟨f, rest, hstack, howner⟩, hfinish⟩ := hends
  have hreachable : Reachable (step jvm) initialState s₁ := ⟨ls, hrun⟩
  have hhandles := handlesOk_of_reachable hreachable
  have hok := referencesOk_of_reachable hreachable
  have hok' := referencesOk_of_reachable (hreachable.tail hfinish)
  have hend := (step_cases hfinish).refsEnd hok hhandles hstack howner
  have htracked : Tracked (c, .ret) (refHistory jvm (c, .ret) ls) s₁ := tracked_of_run hrun
  have hcreated : ∀ r, .created r ∈ refHistory jvm (c, .ret) ls →
      r ∈ s₁.holds (c, .ret) ∨ .replaced r ∈ refHistory jvm (c, .ret) ls :=
    fun r => created_of_run hrun (hhandles.not_returned hstack howner)
  obtain ⟨cb, refs, begin, hcb, hbegin, hforced⟩ :=
    (step_cases hfinish).forced_finish hstack howner
  have hrunning := hhandles.running_top hstack howner hcb
  have hempty := holds_ret_eq_nil_iff hrun hcb hrunning
  have hchar := Frame.returnChar_eq hdesc f
  have hbegins : charAt (jvm.methodDesc a.method)
      (pastEnd (indexOf (jvm.methodDesc a.method) ')' begin)) =
        charAt d.render (exitReturnIndex d.render) := by
    rw [hdesc]
    rcases hbegin with rfl | rfl <;> rfl
  have hdeleted : ∀ r ∈ s₁.holds (c, .ret), r ∈ s₂.refs.table.deletes ↔
      TakenForReference (charAt d.render (exitReturnIndex d.render)) := by
    intro r hr
    rw [hend.mem_deletes_iff hok.refs hr, hchar]
  constructor
  · intro hrefs
    by_contra hreleased
    obtain ⟨htaken, hlast⟩ := not_or.mp hreleased
    obtain ⟨r, hr⟩ := List.exists_mem_of_ne_nil _ (mt hempty.mp hlast)
    have honce := hrefs.deletedOnce r (htracked.made r hr)
    have hmem : r ∈ s₂.refs.table.deletes := List.count_pos_iff.mp (honce ▸ Nat.one_pos)
    exact htaken ((hdeleted r hr).mp hmem)
  · intro hreleased
    refine ⟨fun r hr => ?_, fun r hr hgone => ?_, fun r hr => (htracked.replaced r hr).2,
      ⟨_, _, _, hforced, hend.deletes, fun r hr => ?_, fun r hr => ⟨?_, ?_, ?_⟩⟩,
      hok'.refs.misused⟩
    · apply List.count_eq_one_of_mem hok'.refs.custody.balanced.nodup
      rcases hcreated r hr with hheld | hreplaced
      · refine (hdeleted r hheld).mpr (hreleased.resolve_right fun hlast => ?_)
        rw [hempty.mpr hlast] at hheld
        cases hheld
      · exact hend.mem_deletes_of_mem (htracked.replaced r hreplaced).1
    · rcases hcreated r hr with hheld | hreplaced
      · exact absurd hgone (hok.refs.custody.live (c, .ret) r hheld).2
      · exact hreplaced
    · exact (tracked_of_run hrun).made r (State.mem_holds_of_gone hr)
    · exact htracked.made r (State.mem_holds_of_gone hr)
    · exact State.handed_of_gone hcb hrunning (hok.keeps cb (List.mem_of_getElem? hcb))
        (hchar.trans hbegins.symm) hr
    · exact hok.refs.live_gone_ret hr

/-! ## Two runs -/

/-- A machine whose methods are all `static Object m()`, for a class `Object`. -/
def Jvm.plainObject : Jvm :=
  { Jvm.plain with methodDesc := fun _ => ['(', ')', 'L', 'O', ';'] }

def objectDescriptor : MethodDescriptor :=
  { params := [], ret := some (.object ⟨['O'], nofun, by simp⟩) }

def voidDescriptor : MethodDescriptor := { params := [], ret := none }

/-- A method is hooked and called, and the hook makes the given `return*` calls. -/
def returnsRun (ops : List ReturnOp) : List Label :=
  [.register ⟨1⟩ (some ⟨5⟩), .call 0 ⟨1⟩ fun _ => none, .broadcast 0, .dispatch 0] ++
    ops.map fun op => .native 1 (.ret op)

/-- A reference is replaced, and the one that takes its place is deleted at the end. -/
theorem return_refs_replaced :
    ∃ s₁ s₂, CallbackEnds .plainObject
        (returnsRun [.returnObject (some ⟨8⟩), .returnInt 1, .returnObject (some ⟨9⟩)]) 0 false 0
        (entered ⟨1⟩ fun _ => none) s₁ s₂ ∧
      ReturnRefs .plainObject
        (returnsRun [.returnObject (some ⟨8⟩), .returnInt 1, .returnObject (some ⟨9⟩)]) 0 0 s₁ s₂ ∧
      s₂.refs.table.deletes = [0, 1] := by
  refine ⟨_, _, ⟨rfl, ⟨_, _, rfl, rfl⟩, rfl⟩, ?_, rfl⟩
  refine (return_refs_iff .plainObject _ 0 false 0 (entered ⟨1⟩ fun _ => none) _ _
    objectDescriptor ⟨rfl, ⟨_, _, rfl, rfl⟩, rfl⟩ rfl).mpr (Or.inl ?_)
  have hplain : objectDescriptor.Plain := nofun
  exact (takenForReference_iff hplain).mpr rfl

/-- A hook of a `void` method calls `returnObject`, and the reference is never deleted. -/
theorem reference_lost_in_returnsRun :
    ¬ ∀ jvm ls t threw c a s₁ s₂ (d : MethodDescriptor),
      CallbackEnds jvm ls t threw c a s₁ s₂ → jvm.methodDesc a.method = d.render →
        ReturnRefs jvm ls t c s₁ s₂ := by
  intro hrefs
  have h := hrefs .plain (returnsRun [.returnObject (some ⟨9⟩)]) 0 false 0
    (entered ⟨1⟩ fun _ => none) _ _ voidDescriptor ⟨rfl, ⟨_, _, rfl, rfl⟩, rfl⟩ rfl
  exact absurd (h.deletedOnce 0 (by decide)) (by decide)

end JvmHookFramework
