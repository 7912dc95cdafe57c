/-
  Native/ReturnType.lean --- where the callbacks look for the return type.

  Both search the descriptor for its first `)` and take the character behind it, without
  walking the parameter types.  A class name may hold a `)` too.
-/
import JvmHookFramework.Native.DescriptorWalk
import JvmHookFramework.Native.ForceEarlyReturnNative

set_option autoImplicit false

namespace JvmHookFramework

open MethodDescriptor

/-- A `)` in a class name ends the search inside the parameters. -/
theorem pastEnd_indexOf_lt {d : MethodDescriptor} (hplain : ¬ d.Plain) :
    pastEnd (indexOf d.render ')' 1) < d.beforeReturn.length := by
  have hmem : ')' ∈ renderParams d.params := not_not.mp fun h => hplain (plain_iff.mpr h)
  obtain ⟨i, hi, hlt⟩ := indexOf_go_of_mem hmem (')' :: renderReturn d.ret) 1
  have hindex : indexOf d.render ')' 1 = some i := hi
  rw [hindex, d.length_beforeReturn, pastEnd]
  omega

/-- The index that `onMethodEntry` computes. -/
def entryReturnIndex (desc : List Char) : Nat := pastEnd (indexOf desc ')' 1)

/-- The index that `onMethodExit` computes. -/
def exitReturnIndex (desc : List Char) : Nat := pastEnd (indexOf desc ')' 0)

/-- The JVMTI call for a declared return type, with the value from its field. -/
def declaredForce (ret : Option FieldType) (c : CallParameter) : ForceCall :=
  match ret.map FieldType.kind with
  | none => .ForceEarlyReturnVoid
  | some .int => .ForceEarlyReturnInt c.iv
  | some .float => .ForceEarlyReturnFloat c.jf
  | some .long => .ForceEarlyReturnLong c.lv
  | some .double => .ForceEarlyReturnDouble c.jd
  | some .object => .ForceEarlyReturnObject c.value

/-- Both callbacks find the first character of the return type, so they make the same
JVMTI call, the one of the declared return type. -/
structure ReturnTypeFound (d : MethodDescriptor) : Prop where
  entry : entryReturnIndex d.render = d.beforeReturn.length
  exit : exitReturnIndex d.render = d.beforeReturn.length
  same : ∀ c refs, forceReturn (charAt d.render (entryReturnIndex d.render)) c refs =
    forceReturn (charAt d.render (exitReturnIndex d.render)) c refs
  declared : ∀ c refs, c.edited = true →
    (forceReturn (charAt d.render (entryReturnIndex d.render)) c refs).1 = [declaredForce d.ret c]

/-- At the character of a return type the switch makes the call for that type. -/
theorem forceReturn_returnTag (ret : Option FieldType) {c : CallParameter}
    (hedited : c.edited = true) (refs : JniRefs) :
    (forceReturn (returnTag ret) c refs).1 = [declaredForce ret c] := by
  unfold forceReturn
  rw [if_pos hedited]
  cases ret with
  | none => rfl
  | some t => cases t <;> rfl

/-- The return type of a legal descriptor is found exactly when no class name of the
parameters has a `)`. -/
theorem returnTypeFound_iff (d : MethodDescriptor) : ReturnTypeFound d ↔ d.Plain := by
  constructor
  · intro hfound
    by_contra hplain
    exact absurd hfound.entry (Nat.ne_of_lt (pastEnd_indexOf_lt hplain))
  · intro hplain
    have hentry : entryReturnIndex d.render = d.beforeReturn.length := pastEnd_indexOf hplain
    refine ⟨hentry, hentry, fun c refs => rfl, fun c refs hedited => ?_⟩
    rw [hentry, charAt_return]
    exact forceReturn_returnTag d.ret hedited refs

/-- `void m(L<name>;)` with the name `a)I`: both callbacks take the return type to be
`int`. -/
theorem returnType_missed_in_className : ¬ ∀ d : MethodDescriptor, ReturnTypeFound d := by
  intro hfound
  let name : ClassName := ⟨['a', ')', 'I'], nofun, by simp⟩
  have hentry := (hfound { params := [.object name], ret := none }).entry
  exact absurd hentry (by decide)

end JvmHookFramework
