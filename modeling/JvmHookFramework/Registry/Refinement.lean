/-
  Registry/Refinement.lean --- the registry implements a bag of hooks.

  The abstract registry is the multiset of pairs of a method key and a hook: a
  registration adds one pair, an unregistration removes every pair it names.  The slot
  chain with its tombstones, the separate counter and the reference table refine it
  over every completed sequence of operations.  A ledger that also remembers the
  largest bag so far tells which sequences complete.
-/
import Mathlib.Data.Multiset.MapFold
import JvmHookFramework.Foundation.Transition
import JvmHookFramework.Registry.Slots

set_option autoImplicit false

namespace JvmHookFramework

open Foundation Foundation.SlotChain

/-- A call of `registerHook` or `unregisterHook`. -/
inductive RegistryOp where
  | register (method : JmethodID) (hook : Option Obj)
  | unregister (method : JmethodID) (hook : Option Obj)
  deriving DecidableEq, Repr

def registryStep (jvm : Jvm) (r : Registry) : RegistryOp → Option Registry
  | .register method hook => some (registerHook r method hook)
  | .unregister method hook => unregisterHook jvm r method hook

/-! ## The abstract registry -/

/-- Registered hooks by method key. -/
abbrev HookBag := Multiset (Nat × Option Obj)

/-- The pairs that `unregister(method, hook)` names. -/
def Named (jvm : Jvm) (method : JmethodID) (hook : Option Obj) (pair : Nat × Option Obj) :
    Prop :=
  pair.1 = jvm.deref method ∧ (hook = none ∨ pair.2 = hook)

instance (jvm : Jvm) (method : JmethodID) (hook : Option Obj) :
    DecidablePred (Named jvm method hook) := fun pair =>
  inferInstanceAs (Decidable (pair.1 = jvm.deref method ∧ (hook = none ∨ pair.2 = hook)))

def HookBag.apply (jvm : Jvm) (bag : HookBag) : RegistryOp → HookBag
  | .register method hook => (jvm.deref method, hook) ::ₘ bag
  | .unregister method hook => bag.filter fun pair => ¬ Named jvm method hook pair

/-- The bag that a sequence of operations leaves. -/
def HookBag.after (jvm : Jvm) (ops : List RegistryOp) : HookBag :=
  ops.foldl (HookBag.apply jvm) 0

/-- The bag together with the largest size it has had. -/
structure Ledger where
  bag : HookBag := 0
  peak : Nat := 0

namespace Ledger

def apply (jvm : Jvm) (l : Ledger) (op : RegistryOp) : Ledger :=
  let bag := l.bag.apply jvm op
  ⟨bag, max l.peak bag.card⟩

def after (jvm : Jvm) (ops : List RegistryOp) : Ledger := ops.foldl (apply jvm) {}

theorem after_append_singleton (jvm : Jvm) (ops : List RegistryOp) (op : RegistryOp) :
    after jvm (ops ++ [op]) = (after jvm ops).apply jvm op := by
  simp [after]

/-- Forgetting the peak leaves the bag. -/
theorem bag_foldl_apply (jvm : Jvm) (ops : List RegistryOp) (l : Ledger) :
    (ops.foldl (apply jvm) l).bag = ops.foldl (HookBag.apply jvm) l.bag := by
  induction ops generalizing l with
  | nil => rfl
  | cons op ops ih => exact ih (l.apply jvm op)

theorem bag_after (jvm : Jvm) (ops : List RegistryOp) :
    (after jvm ops).bag = HookBag.after jvm ops :=
  bag_foldl_apply jvm ops {}

/-- Something is registered, and never was there more registered at a time. -/
def AtPeak (l : Ledger) : Prop := 0 < l.peak ∧ l.bag.card = l.peak

end Ledger

/-! ## The invariant of the registry -/

namespace Registry

/-- The content of the slots as pairs of the abstract registry. -/
def bag (jvm : Jvm) (r : Registry) : HookBag :=
  (content r.slots).map fun reg => (jvm.deref reg.1, denote r.hookRefs reg.2)

/-- The counter, the slots and the reference table agree. -/
structure Ok (r : Registry) : Prop where
  count_eq : r.methodHookCount = r.registrations.length
  live_iff : ∀ ref, r.hookRefs.Live ref ↔ ref ∈ r.storedRefs
  stored_nodup : r.storedRefs.Nodup
  balanced : r.hookRefs.Balanced

theorem ok_initial : initialRegistry.Ok where
  count_eq := rfl
  live_iff := by
    intro ref
    constructor
    · exact fun h => absurd h.1 (Nat.not_lt_zero ref)
    · exact fun h => absurd h List.not_mem_nil
  stored_nodup := List.nodup_nil
  balanced := RefTable.balanced_empty

theorem mem_storedRefs {r : Registry} {ref : Nat} :
    ref ∈ r.storedRefs ↔ ∃ m, (m, some ref) ∈ r.registrations := by
  simp only [storedRefs, List.mem_filterMap, Prod.exists]
  constructor
  · rintro ⟨m, hook, hmem, heq⟩
    exact ⟨m, heq ▸ hmem⟩
  · rintro ⟨m, hmem⟩
    exact ⟨m, some ref, hmem, rfl⟩

/-- A stored reference exists. -/
theorem Ok.stored_lt {r : Registry} (h : r.Ok) {reg : Registration}
    (hreg : reg ∈ r.registrations) : ∀ ref ∈ reg.2, ref < r.hookRefs.next := by
  intro ref href
  have hmem : ref ∈ r.storedRefs :=
    mem_storedRefs.mpr ⟨reg.1, by rw [← Option.mem_def.mp href]; exact hreg⟩
  exact ((h.live_iff ref).mpr hmem).1

/-! ### registerHook -/

theorem registrations_registerHook (r : Registry) (method : JmethodID) (hook : Option Obj) :
    (registerHook r method hook).registrations.Perm
      ((method, (NewGlobalRef hook r.hookRefs).1) :: r.registrations) := by
  rw [registrations, registerHook_slots, ← Multiset.coe_eq_coe]
  exact content_fill r.slots _

theorem storedRefs_registerHook (r : Registry) (method : JmethodID) (hook : Option Obj) :
    (registerHook r method hook).storedRefs.Perm
      ((NewGlobalRef hook r.hookRefs).1.toList ++ r.storedRefs) := by
  have hperm := (registrations_registerHook r method hook).filterMap Prod.snd
  refine hperm.trans (List.Perm.of_eq ?_)
  cases hook <;> rfl

theorem Ok.registerHook {r : Registry} (h : r.Ok) (method : JmethodID) (hook : Option Obj) :
    (registerHook r method hook).Ok := by
  have hstored := storedRefs_registerHook r method hook
  have hlength := (registrations_registerHook r method hook).length_eq
  have hcount : (JvmHookFramework.registerHook r method hook).methodHookCount =
      (JvmHookFramework.registerHook r method hook).registrations.length := by
    have hsucc : (JvmHookFramework.registerHook r method hook).methodHookCount =
        r.methodHookCount + 1 := rfl
    rw [hsucc, h.count_eq, hlength]
    simp
  cases hook with
  | none =>
      refine ⟨hcount, fun ref => ?_, ?_, h.balanced⟩
      · exact (h.live_iff ref).trans hstored.mem_iff.symm
      · exact hstored.nodup_iff.mpr h.stored_nodup
  | some o =>
      refine ⟨hcount, fun ref => ?_, ?_, h.balanced.newRef o⟩
      · rw [hstored.mem_iff, registerHook_hookRefs]
        simp only [NewGlobalRef, Option.toList_some, List.singleton_append, List.mem_cons,
          ← h.live_iff ref]
        exact (RefTable.live_newRef h.balanced).trans or_comm
      · refine hstored.nodup_iff.mpr (List.nodup_cons.mpr ⟨?_, h.stored_nodup⟩)
        exact fun hmem => Nat.lt_irrefl _ ((h.live_iff _).mpr hmem).1

theorem bag_registerHook (jvm : Jvm) {r : Registry} (h : r.Ok) (method : JmethodID)
    (hook : Option Obj) :
    (registerHook r method hook).bag jvm = (jvm.deref method, hook) ::ₘ r.bag jvm := by
  rw [bag, registerHook_slots, content_fill, Multiset.map_cons, registerHook_hookRefs,
    denote_NewGlobalRef]
  congr 1
  refine Multiset.map_congr rfl fun reg hreg => ?_
  have hmem : reg ∈ r.registrations := mem_values.mpr (mem_content.mp hreg)
  rw [denote_NewGlobalRef_of_lt hook (h.stored_lt hmem)]

/-! ### unregisterHook -/

section Unregister

variable {jvm : Jvm} {r r' : Registry} {method : JmethodID} {hook : Option Obj}

theorem registrations_unregisterHook (hrun : unregisterHook jvm r method hook = some r') :
    r'.registrations =
      r.registrations.filter fun reg => !removes jvm r.hookRefs method hook reg := by
  rw [registrations, (unregisterHook_spec hrun).1, values_clear]
  rfl

/-- A stored reference is kept or removed with its slot. -/
theorem Ok.mem_storedRefs_unregisterHook (h : r.Ok)
    (hrun : unregisterHook jvm r method hook = some r') (ref : Nat) :
    ref ∈ r'.storedRefs ↔ ref ∈ r.storedRefs ∧
      ref ∉ removedRefs jvm r.hookRefs method hook r.registrations := by
  have hregs := registrations_unregisterHook hrun
  -- a reference is stored in one slot only, so that slot decides
  have hsplit := List.filter_append_perm (removes jvm r.hookRefs method hook) r.registrations
  have hperm : (removedRefs jvm r.hookRefs method hook r.registrations ++
      r'.storedRefs).Perm r.storedRefs := by
    rw [removedRefs, storedRefs, hregs, ← List.filterMap_append]
    exact hsplit.filterMap Prod.snd
  have hdisjoint : List.Disjoint (removedRefs jvm r.hookRefs method hook r.registrations)
      r'.storedRefs :=
    (List.nodup_append'.mp (hperm.nodup_iff.mpr h.stored_nodup)).2.2
  constructor
  · intro hmem
    exact ⟨hperm.mem_iff.mp (List.mem_append_right _ hmem), fun hrem => hdisjoint hrem hmem⟩
  · rintro ⟨hmem, hrem⟩
    exact (List.mem_append.mp (hperm.mem_iff.mpr hmem)).resolve_left hrem

theorem removedRefs_sublist :
    (removedRefs jvm r.hookRefs method hook r.registrations).Sublist r.storedRefs :=
  List.filter_sublist.filterMap Prod.snd

theorem Ok.unregisterHook (h : r.Ok)
    (hrun : unregisterHook jvm r method hook = some r') : r'.Ok where
  count_eq := by
    have hpart := List.length_eq_length_filter_add (l := r.registrations)
      (removes jvm r.hookRefs method hook)
    rw [(unregisterHook_spec hrun).2.1, registrations_unregisterHook hrun, h.count_eq]
    omega
  live_iff := by
    intro ref
    rw [(unregisterHook_spec hrun).2.2, RefTable.live_deleteAll, h.live_iff,
      h.mem_storedRefs_unregisterHook hrun]
  stored_nodup := by
    rw [storedRefs, registrations_unregisterHook hrun]
    exact h.stored_nodup.sublist (List.filter_sublist.filterMap Prod.snd)
  balanced := by
    rw [(unregisterHook_spec hrun).2.2]
    refine h.balanced.deleteAll (h.stored_nodup.sublist removedRefs_sublist) fun ref href => ?_
    exact (h.live_iff ref).mpr (removedRefs_sublist.subset href)

theorem bag_unregisterHook (hrun : unregisterHook jvm r method hook = some r') :
    r'.bag jvm = (r.bag jvm).filter fun pair => ¬ Named jvm method hook pair := by
  obtain ⟨hslots, _, hrefs⟩ := unregisterHook_spec hrun
  have hdenote : ∀ ref, denote r'.hookRefs ref = denote r.hookRefs ref := by
    intro ref
    rw [hrefs, denote, denote]
    cases ref with
    | none => rfl
    | some n => exact RefTable.get?_deleteAll _ _ n
  simp only [bag, hslots, content_clear, hdenote, Multiset.filter_map]
  congr 1
  refine Multiset.filter_congr fun reg _ => ?_
  simp [removes, Named]

end Unregister

end Registry

/-! ## The refinement -/

/-- What holds of the registry after the operations `ops`. -/
structure Refines (jvm : Jvm) (ops : List RegistryOp) (r : Registry) : Prop where
  ok : r.Ok
  bag_eq : r.bag jvm = (Ledger.after jvm ops).bag
  peaked : Peaked r.slots (Ledger.after jvm ops).peak

theorem Registry.card_bag (jvm : Jvm) (r : Registry) :
    (r.bag jvm).card = (content r.slots).card :=
  Multiset.card_map _ _

theorem refines_initial (jvm : Jvm) : Refines jvm [] initialRegistry where
  ok := Registry.ok_initial
  bag_eq := rfl
  peaked := peaked_initial

/-- One completed operation keeps the registry and the ledger in step. -/
theorem Refines.step {jvm : Jvm} {ops : List RegistryOp} {op : RegistryOp}
    {r r' : Registry} (h : Refines jvm ops r) (hstep : registryStep jvm r op = some r') :
    Refines jvm (ops ++ [op]) r' := by
  have hcard := r'.card_bag jvm
  cases op with
  | register method hook =>
      obtain rfl := Option.some.inj hstep
      have hbag := Registry.bag_registerHook jvm h.ok method hook
      rw [h.bag_eq] at hbag
      refine ⟨h.ok.registerHook method hook, ?_, ?_⟩
      · rw [Ledger.after_append_singleton, hbag]
        rfl
      · rw [Ledger.after_append_singleton, registerHook_slots]
        have hpeak := h.peaked.fill (method, (NewGlobalRef hook r.hookRefs).1)
        rw [← registerHook_slots, ← hcard, hbag] at hpeak
        exact registerHook_slots r method hook ▸ hpeak
  | unregister method hook =>
      have hbag := Registry.bag_unregisterHook hstep
      rw [h.bag_eq] at hbag
      have hclear := h.peaked.clear (removes jvm r.hookRefs method hook)
      rw [← (unregisterHook_spec hstep).1] at hclear
      refine ⟨h.ok.unregisterHook hstep, ?_, ?_⟩
      · rw [Ledger.after_append_singleton, hbag]
        rfl
      · rw [Ledger.after_append_singleton]
        have hle : ((Ledger.after jvm ops).bag.apply jvm (.unregister method hook)).card ≤
            (Ledger.after jvm ops).peak := by
          have heq : (Ledger.after jvm ops).bag.apply jvm (.unregister method hook) =
              r'.bag jvm := hbag.symm
          rw [heq, hcard]
          exact hclear.card_le
        simp only [Ledger.apply, max_eq_left hle]
        exact hclear

/-- Every completed sequence of operations keeps the registry a refinement. -/
theorem Refines.run {jvm : Jvm} {done ops : List RegistryOp} {r r' : Registry}
    (h : Refines jvm done r) (hrun : run (registryStep jvm) r ops = some r') :
    Refines jvm (done ++ ops) r' := by
  induction ops generalizing done r with
  | nil =>
      obtain rfl := Option.some.inj hrun
      simpa using h
  | cons op ops ih =>
      obtain ⟨mid, hmid, hrest⟩ := run_cons_eq_some_iff.mp hrun
      have hnext := ih (h.step hmid) hrest
      simpa using hnext

theorem refines_of_run {jvm : Jvm} {ops : List RegistryOp} {r : Registry}
    (hrun : run (registryStep jvm) initialRegistry ops = some r) : Refines jvm ops r := by
  simpa using (refines_initial jvm).run hrun

/-! ## Lookup -/

/-- The pairs of one method. -/
def HookBag.ofMethod (jvm : Jvm) (bag : HookBag) (metid : JmethodID) : HookBag :=
  bag.filter fun pair => pair.1 = jvm.deref metid

/-- What `shouldRunHook` collects denotes the hooks of the method in the bag. -/
theorem Registry.hooksOf_denote (jvm : Jvm) (r : Registry) (metid : JmethodID) :
    (↑((r.hooksOf jvm metid).map (denote r.hookRefs)) : Multiset (Option Obj)) =
      ((r.bag jvm).ofMethod jvm metid).map Prod.snd := by
  rw [HookBag.ofMethod, Registry.bag, Multiset.filter_map, Multiset.map_map, content,
    Multiset.filter_coe, Multiset.map_coe, Registry.hooksOf, JvmHookFramework.ofMethod,
    List.map_map]
  rfl

theorem Registry.length_hooksOf (jvm : Jvm) (r : Registry) (metid : JmethodID) :
    (r.hooksOf jvm metid).length = ((r.bag jvm).ofMethod jvm metid).card := by
  have hcard := congrArg Multiset.card (r.hooksOf_denote jvm metid)
  simpa using hcard

/-- A method has no more hooks than there are registrations, which is the size of the
array that takes them. -/
theorem Registry.Ok.length_hooksOf_le {jvm : Jvm} {r : Registry} (h : r.Ok)
    (metid : JmethodID) : ((r.hooksOf jvm metid).length : Int) ≤ r.methodHookCount := by
  have hle : (r.hooksOf jvm metid).length ≤ r.registrations.length := by
    rw [Registry.hooksOf, JvmHookFramework.ofMethod, List.length_map]
    exact List.length_filter_le _ _
  rw [h.count_eq]
  exact_mod_cast hle

theorem Registry.hooksOf_eq_nil_iff (jvm : Jvm) (r : Registry) (metid : JmethodID) :
    r.hooksOf jvm metid = [] ↔ ¬ ∃ hook, (jvm.deref metid, hook) ∈ r.bag jvm := by
  rw [← List.length_eq_zero_iff, r.length_hooksOf, HookBag.ofMethod, Multiset.card_eq_zero,
    Multiset.filter_eq_nil, not_exists]
  constructor
  · exact fun hnone hook hmem => hnone _ hmem rfl
  · rintro hnone ⟨key, hook⟩ hmem rfl
    exact hnone hook hmem

/-- A lookup answers from the bag, with an array exactly when it says yes, and inside the
array. -/
theorem Registry.Ok.shouldRunHook_spec {jvm : Jvm} {r : Registry} (h : r.Ok)
    (metid : JmethodID) :
    ((shouldRunHook jvm r metid).1 = true ↔ ∃ hook, (jvm.deref metid, hook) ∈ r.bag jvm) ∧
      (shouldRunHook jvm r metid).2.1 = ((r.bag jvm).ofMethod jvm metid).card ∧
      (shouldRunHook jvm r metid).2.2.isSome = (shouldRunHook jvm r metid).1 ∧
      ∀ allHooks ∈ (shouldRunHook jvm r metid).2.2,
        (↑(allHooks.cells.map (denote r.hookRefs)) : Multiset (Option Obj)) =
            ((r.bag jvm).ofMethod jvm metid).map Prod.snd ∧
          (allHooks.cells.length : Int) ≤ allHooks.capacity := by
  have hlength := r.length_hooksOf jvm metid
  have hnil := r.hooksOf_eq_nil_iff jvm metid
  rw [shouldRunHook_eq]
  by_cases hempty : r.hooksOf jvm metid = []
  · rw [if_pos hempty]
    refine ⟨⟨fun hfalse => absurd hfalse Bool.false_ne_true, fun hex => ?_⟩, ?_, rfl, ?_⟩
    · exact absurd hex (hnil.mp hempty)
    · rw [← hlength, hempty]
      rfl
    · exact fun _ hmem => absurd hmem (Option.not_mem_none _)
  · rw [if_neg hempty]
    refine ⟨⟨fun _ => ?_, fun _ => rfl⟩, hlength, rfl, ?_⟩
    · exact not_not.mp (mt hnil.mpr hempty)
    · intro allHooks hmem
      obtain rfl := Option.mem_some.mp hmem
      exact ⟨r.hooksOf_denote jvm metid, h.length_hooksOf_le metid⟩

/-- The registry refines the bag of hooks: after any completed operations the filled
slots are the bag, the counter is their number, the valid references are the stored
ones and none was deleted twice, and a lookup answers from the bag inside its array. -/
theorem registry_refines_bag {jvm : Jvm} {ops : List RegistryOp} {r : Registry}
    (hrun : run (registryStep jvm) initialRegistry ops = some r) :
    r.bag jvm = HookBag.after jvm ops ∧
      r.methodHookCount = r.registrations.length ∧
      ((∀ ref, r.hookRefs.Live ref ↔ ref ∈ r.storedRefs) ∧ r.storedRefs.Nodup ∧
        r.hookRefs.deletes.Nodup) ∧
      ∀ metid : JmethodID,
        let pairs := (HookBag.after jvm ops).ofMethod jvm metid
        ((shouldRunHook jvm r metid).1 = true ↔
          ∃ hook, (jvm.deref metid, hook) ∈ HookBag.after jvm ops) ∧
        (shouldRunHook jvm r metid).2.1 = pairs.card ∧
        (shouldRunHook jvm r metid).2.2.isSome = (shouldRunHook jvm r metid).1 ∧
        ∀ allHooks ∈ (shouldRunHook jvm r metid).2.2,
          (↑(allHooks.cells.map (denote r.hookRefs)) : Multiset (Option Obj)) =
              pairs.map Prod.snd ∧
            (allHooks.cells.length : Int) ≤ allHooks.capacity := by
  have h := refines_of_run hrun
  have hbag : r.bag jvm = HookBag.after jvm ops := h.bag_eq.trans (Ledger.bag_after jvm ops)
  refine ⟨hbag, h.ok.count_eq, ⟨h.ok.live_iff, h.ok.stored_nodup, h.ok.balanced.nodup⟩, ?_⟩
  rw [← hbag]
  exact fun metid => h.ok.shouldRunHook_spec metid

/-- The head slot is cleared and then reused by another method's hook. -/
theorem registry_refines_bag_after_reuse :
    ∃ r, run (registryStep Jvm.plain) initialRegistry
        [.register ⟨1⟩ (some ⟨5⟩), .register ⟨2⟩ (some ⟨6⟩), .unregister ⟨1⟩ none,
          .register ⟨3⟩ (some ⟨5⟩)] = some r ∧
      r.bag Jvm.plain = {(2, some ⟨6⟩), (3, some ⟨5⟩)} := by
  have hrefines := @registry_refines_bag Jvm.plain
    [.register ⟨1⟩ (some ⟨5⟩), .register ⟨2⟩ (some ⟨6⟩), .unregister ⟨1⟩ none,
      .register ⟨3⟩ (some ⟨5⟩)] _ rfl
  exact ⟨_, rfl, hrefines.1.trans (by decide)⟩

/-! ## Which operations complete -/

/-- An unregistration completes exactly when no slot of the chain is empty, and that is
when the registrations are at their peak. -/
theorem Refines.unregisterHook_isSome_iff {jvm : Jvm} {ops : List RegistryOp} {r : Registry}
    (h : Refines jvm ops r) (method : JmethodID) (hook : Option Obj) :
    (unregisterHook jvm r method hook).isSome ↔ (Ledger.after jvm ops).AtPeak := by
  rw [unregisterHook_isSome, h.peaked.none_notMem_iff, ← r.card_bag jvm, h.bag_eq]
  rfl

theorem Refines.run_isSome_iff {jvm : Jvm} {done ops : List RegistryOp} {r : Registry}
    (h : Refines jvm done r) :
    (∃ r', JvmHookFramework.Foundation.run (registryStep jvm) r ops = some r') ↔
      ∀ before method hook after, ops = before ++ .unregister method hook :: after →
        (Ledger.after jvm (done ++ before)).AtPeak := by
  induction ops generalizing done r with
  | nil => simp
  | cons op ops ih =>
      have hcons : (∀ before method hook after,
          op :: ops = before ++ .unregister method hook :: after →
            (Ledger.after jvm (done ++ before)).AtPeak) ↔
          (∀ method hook, op = .unregister method hook → (Ledger.after jvm done).AtPeak) ∧
          ∀ before method hook after, ops = before ++ .unregister method hook :: after →
            (Ledger.after jvm (done ++ [op] ++ before)).AtPeak := by
        constructor
        · intro hall
          refine ⟨?_, ?_⟩
          · rintro method hook rfl
            simpa using hall [] method hook ops rfl
          · rintro before method hook after rfl
            simpa using hall (op :: before) method hook after rfl
        · rintro ⟨hhead, htail⟩ before method hook after heq
          cases before with
          | nil =>
              simp only [List.nil_append, List.cons.injEq] at heq
              simpa using hhead method hook heq.1
          | cons first before =>
              simp only [List.cons_append, List.cons.injEq] at heq
              obtain ⟨rfl, heq⟩ := heq
              simpa using htail before method hook after heq
      rw [hcons]
      cases op with
      | register method hook =>
          have hnext : Refines jvm (done ++ [.register method hook])
              (registerHook r method hook) := h.step rfl
          rw [← ih hnext]
          simp [run_cons_eq_some_iff, registryStep]
      | unregister method hook =>
          have hcompletes := h.unregisterHook_isSome_iff method hook
          constructor
          · rintro ⟨r', hrun⟩
            obtain ⟨mid, hmid, hrest⟩ := run_cons_eq_some_iff.mp hrun
            have hatPeak := hcompletes.mp (Option.isSome_iff_exists.mpr ⟨mid, hmid⟩)
            exact ⟨fun _ _ _ => hatPeak, (ih (h.step hmid)).mp ⟨r', hrest⟩⟩
          · rintro ⟨hhead, htail⟩
            obtain ⟨mid, hmid⟩ :=
              Option.isSome_iff_exists.mp (hcompletes.mpr (hhead method hook rfl))
            have hstep : registryStep jvm r (.unregister method hook) = some mid := hmid
            obtain ⟨r', hrest⟩ := (ih (h.step hstep)).mpr htail
            exact ⟨r', run_cons_eq_some_iff.mpr ⟨mid, hstep, hrest⟩⟩

/-- A sequence of operations completes exactly when each `unregisterHook` in it is
called while something is registered and the number of registrations is the largest it
has been: otherwise the chain has an empty slot and the scan reads through its null
method. -/
theorem registry_completes_iff_unregister_at_peak (jvm : Jvm) (ops : List RegistryOp) :
    (∃ r, run (registryStep jvm) initialRegistry ops = some r) ↔
      ∀ before method hook after, ops = before ++ .unregister method hook :: after →
        (Ledger.after jvm before).AtPeak :=
  (refines_initial jvm).run_isSome_iff

/-- Nothing was ever registered: the head slot is empty. -/
theorem unregisterHook_reads_fresh_head :
    ¬ ∃ r, run (registryStep Jvm.plain) initialRegistry [.unregister ⟨1⟩ (some ⟨5⟩)] =
      some r := by
  rintro ⟨r, hrun⟩
  cases hrun

end JvmHookFramework
