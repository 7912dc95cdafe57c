/-
  Registry/Lifetime.lean --- how long a collected reference lives.

  `shouldRunHook` copies references out of the registry, and nothing tells the copy when
  `unregisterHook` deletes one.  A copied reference is live for as long as no
  `unregisterHook` that matches it has completed; a later `registerHook` of the same hook
  makes another reference.
-/
import JvmHookFramework.Registry.Refinement

set_option autoImplicit false

namespace JvmHookFramework

open Foundation

/-- The arguments of an `unregisterHook` call match a reference collected for `metid`:
the same method, and a null hook or the object of the reference. -/
def Matches (jvm : Jvm) (refs : RefTable Obj) (metid : JmethodID) (ref : Nat)
    (op : JmethodID × Option Obj) : Prop :=
  jvm.deref metid = jvm.deref op.1 ∧ (op.2 = none ∨ denote refs (some ref) = op.2)

namespace Registry

/-- What is known of a reference collected for `metid` after the `unregisterHook` calls
`since` have completed. -/
structure Tracks (jvm : Jvm) (r : Registry) (metid : JmethodID) (ref : Nat)
    (since : List (JmethodID × Option Obj)) : Prop where
  created : ref < r.hookRefs.next
  /-- A slot that still holds it is one of the method. -/
  key : ∀ m, (m, some ref) ∈ r.registrations → jvm.deref m = jvm.deref metid
  live_iff : r.hookRefs.Live ref ↔ ∀ op ∈ since, ¬ Matches jvm r.hookRefs metid ref op

/-- A reference is stored in one slot at most. -/
theorem Ok.stored_once {r : Registry} (h : r.Ok) {m₁ m₂ : JmethodID} {ref : Nat}
    (h₁ : (m₁, some ref) ∈ r.registrations) (h₂ : (m₂, some ref) ∈ r.registrations) :
    m₁ = m₂ := by
  have hnodup := h.stored_nodup
  unfold storedRefs at hnodup
  generalize r.registrations = regs at hnodup h₁ h₂
  induction regs with
  | nil => cases h₁
  | cons reg regs ih =>
      have hrest : (regs.filterMap Prod.snd).Nodup :=
        hnodup.sublist ((List.sublist_cons_self reg regs).filterMap Prod.snd)
      have hhead : ∀ {m m' : JmethodID}, (m, some ref) = reg → (m', some ref) ∉ regs := by
        rintro m m' rfl hmem
        have hcons : ((m, some ref) :: regs).filterMap Prod.snd =
            ref :: regs.filterMap Prod.snd := rfl
        rw [hcons, List.nodup_cons] at hnodup
        exact hnodup.1 (List.mem_filterMap.mpr ⟨_, hmem, rfl⟩)
      rcases List.mem_cons.mp h₁ with heq₁ | h₁
      · rcases List.mem_cons.mp h₂ with heq₂ | h₂
        · exact (Prod.mk.inj (heq₁.trans heq₂.symm)).1
        · exact absurd h₂ (hhead heq₁)
      · rcases List.mem_cons.mp h₂ with heq₂ | h₂
        · exact absurd h₁ (hhead heq₂)
        · exact ih hrest h₁ h₂

section

variable {jvm : Jvm} {r r' : Registry} {metid method : JmethodID} {ref : Nat}
  {hook : Option Obj} {since : List (JmethodID × Option Obj)}

/-- What `shouldRunHook` collects is live. -/
theorem Ok.tracks_hooksOf (h : r.Ok) (hmem : some ref ∈ r.hooksOf jvm metid) :
    Tracks jvm r metid ref [] := by
  unfold hooksOf ofMethod at hmem
  obtain ⟨⟨m, hook⟩, hreg, rfl⟩ := List.mem_map.mp hmem
  obtain ⟨hreg, hkey⟩ := List.mem_filter.mp hreg
  have hlive := (h.live_iff ref).mpr (mem_storedRefs.mpr ⟨m, hreg⟩)
  refine ⟨hlive.1, fun m' hreg' => ?_, fun _ _ hop => absurd hop List.not_mem_nil,
    fun _ => hlive⟩
  rw [h.stored_once hreg' hreg]
  exact of_decide_eq_true hkey

theorem Tracks.registerHook (h : Tracks jvm r metid ref since) (hok : r.Ok) :
    Tracks jvm (registerHook r method hook) metid ref since := by
  have hrefs : (JvmHookFramework.registerHook r method hook).hookRefs =
      (NewGlobalRef hook r.hookRefs).2 := rfl
  have hdenote : denote (NewGlobalRef hook r.hookRefs).2 (some ref) =
      denote r.hookRefs (some ref) := by
    refine denote_NewGlobalRef_of_lt hook fun r' hr' => ?_
    rw [← Option.some.inj hr']
    exact h.created
  have hne : some ref ≠ (NewGlobalRef hook r.hookRefs).1 := by
    cases hook with
    | none => exact Option.some_ne_none ref
    | some o =>
        intro heq
        exact Nat.ne_of_lt h.created (Option.some.inj heq)
  refine ⟨?_, fun m hreg => ?_, ?_⟩
  · rw [hrefs]
    cases hook with
    | none => exact h.created
    | some o =>
        rw [NewGlobalRef, RefTable.next_newRef]
        exact Nat.lt_succ_of_lt h.created
  · rcases List.mem_cons.mp ((registrations_registerHook r method hook).mem_iff.mp hreg) with
      heq | hold
    · exact absurd (Prod.mk.inj heq).2 hne
    · exact h.key m hold
  · unfold Matches
    rw [hrefs, hdenote]
    refine Iff.trans ?_ h.live_iff
    cases hook with
    | none => exact Iff.rfl
    | some o =>
        rw [NewGlobalRef, RefTable.live_newRef hok.balanced]
        exact or_iff_left (Nat.ne_of_lt h.created)

/-- For a reference that is still stored, the slot is cleared exactly by a call that
matches it. -/
theorem Tracks.mem_removedRefs (h : Tracks jvm r metid ref since)
    (hstored : ref ∈ r.storedRefs) :
    ref ∈ removedRefs jvm r.hookRefs method hook r.registrations ↔
      Matches jvm r.hookRefs metid ref (method, hook) := by
  unfold removedRefs Matches
  constructor
  · intro hmem
    obtain ⟨⟨m, hookRef⟩, hreg, rfl⟩ := List.mem_filterMap.mp hmem
    obtain ⟨hreg, hremoves⟩ := List.mem_filter.mp hreg
    have htest := of_decide_eq_true hremoves
    exact ⟨(h.key m hreg).symm.trans htest.1, htest.2⟩
  · rintro ⟨hkey, hobj⟩
    obtain ⟨m, hreg⟩ := mem_storedRefs.mp hstored
    refine List.mem_filterMap.mpr ⟨(m, some ref), List.mem_filter.mpr ⟨hreg, ?_⟩, rfl⟩
    exact decide_eq_true ⟨(h.key m hreg).trans hkey, hobj⟩

theorem Tracks.unregisterHook (h : Tracks jvm r metid ref since) (hok : r.Ok)
    (hrun : unregisterHook jvm r method hook = some r') :
    Tracks jvm r' metid ref (since ++ [(method, hook)]) := by
  have hrefs := (unregisterHook_spec hrun).2.2
  have hdenote : denote r'.hookRefs (some ref) = denote r.hookRefs (some ref) := by
    unfold denote
    rw [hrefs, Option.bind_some, Option.bind_some, RefTable.get?_deleteAll]
  refine ⟨?_, fun m hreg => ?_, ?_⟩
  · rw [hrefs, RefTable.next_deleteAll]
    exact h.created
  · rw [registrations_unregisterHook hrun] at hreg
    exact h.key m (List.mem_filter.mp hreg).1
  · unfold Matches
    rw [hdenote, hrefs, RefTable.live_deleteAll]
    simp only [List.mem_append, List.mem_singleton, or_imp, forall_and, forall_eq]
    refine Iff.trans (and_congr_right fun hlive => not_congr ?_) (and_congr_left' h.live_iff)
    exact h.mem_removedRefs ((hok.live_iff ref).mp hlive)

end

end Registry

end JvmHookFramework
