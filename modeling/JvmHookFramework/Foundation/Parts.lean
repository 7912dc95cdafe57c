/-
  Foundation/Parts.lean --- machines made of parts that share a state.

  Every label belongs to one part or to the shared state.  A step of a part looks at the
  shared state and at the part itself and changes the part only.  What a part does and
  emits in a run is then what it would do with the labels of the other parts left out.
-/
import Mathlib.Data.List.Forall2
import Mathlib.Logic.Function.Basic
import JvmHookFramework.Foundation.Transition

set_option autoImplicit false

namespace JvmHookFramework.Foundation

/-- A shared state `σ` and a state `π` for each part. -/
structure Compound (σ π κ : Type) where
  shared : σ
  part : κ → π

structure Parts (σ π κ ℓ ε : Type) where
  /-- The part a label belongs to; `none` is the shared state. -/
  owner : ℓ → Option κ
  change : σ → ℓ → Option σ
  move : σ → π → ℓ → Option π
  emit : σ → π → ℓ → List ε

namespace Parts

section

variable {σ π κ ℓ ε : Type} [DecidableEq κ] (m : Parts σ π κ ℓ ε)

def step (s : Compound σ π κ) (l : ℓ) : Option (Compound σ π κ) :=
  match m.owner l with
  | none => (m.change s.shared l).map fun shared => { s with shared := shared }
  | some k => (m.move s.shared (s.part k) l).map fun part =>
      { s with part := Function.update s.part k part }

/-- The events of a step, under the part that emits them. -/
def events (s : Compound σ π κ) (l : ℓ) : List (κ × ε) :=
  match m.owner l with
  | none => []
  | some k => (m.emit s.shared (s.part k) l).map fun e => (k, e)

/-- What the part `k` emits. -/
def ofPart (k : κ) (log : List (κ × ε)) : List ε :=
  log.filterMap fun e => if e.1 = k then some e.2 else none

theorem mem_ofPart {k : κ} {log : List (κ × ε)} {e : ε} : e ∈ ofPart k log ↔ (k, e) ∈ log := by
  unfold ofPart
  rw [List.mem_filterMap]
  constructor
  · rintro ⟨⟨j, e'⟩, hmem, heq⟩
    split at heq
    · rename_i hjk
      rw [← Option.some.inj heq, ← hjk]
      exact hmem
    · cases heq
  · exact fun hmem => ⟨_, hmem, if_pos rfl⟩

theorem ofPart_append (k : κ) (log log' : List (κ × ε)) :
    ofPart k (log ++ log') = ofPart k log ++ ofPart k log' :=
  List.filterMap_append

theorem ofPart_map_self (k : κ) (es : List ε) : ofPart k (es.map fun e => (k, e)) = es := by
  simp [ofPart, List.filterMap_map]

theorem ofPart_map_of_ne {k j : κ} (h : j ≠ k) (es : List ε) :
    ofPart k (es.map fun e => (j, e)) = [] := by
  simp [ofPart, List.filterMap_map, h]

theorem ofPart_forall₂ {δ : Type} {related : ε → δ → Prop} {log : List (κ × ε)}
    {log' : List (κ × δ)}
    (h : List.Forall₂ (fun x y => x.1 = y.1 ∧ related x.2 y.2) log log') (k : κ) :
    List.Forall₂ related (ofPart k log) (ofPart k log') := by
  refine List.rel_filterMap ?_ h
  rintro ⟨i, e⟩ ⟨j, d⟩ ⟨rfl, hrelated⟩
  by_cases hk : i = k
  · simpa only [if_pos hk] using Option.Rel.some hrelated
  · simpa only [if_neg hk] using Option.Rel.none

variable {m} {s s' : Compound σ π κ} {l : ℓ} {k : κ}

/-- A step changes the shared state, or the part that its label belongs to. -/
theorem step_cases (h : m.step s l = some s') :
    (m.owner l = none ∧ ∃ shared, m.change s.shared l = some shared ∧
      s' = { s with shared := shared }) ∨
    ∃ j part, m.owner l = some j ∧ m.move s.shared (s.part j) l = some part ∧
      s' = { s with part := Function.update s.part j part } := by
  unfold step at h
  cases howner : m.owner l with
  | none =>
      rw [howner] at h
      obtain ⟨shared, hshared, heq⟩ := Option.map_eq_some_iff.mp h
      exact Or.inl ⟨rfl, shared, hshared, heq.symm⟩
  | some j =>
      rw [howner] at h
      obtain ⟨part, hpart, heq⟩ := Option.map_eq_some_iff.mp h
      exact Or.inr ⟨j, part, rfl, hpart, heq.symm⟩

/-- What every move of a part keeps holds of every part, whatever the others do. -/
theorem part_invariant {inv : π → Prop} {initial : Compound σ π κ}
    (hmove : ∀ shared part l part', inv part → m.move shared part l = some part' → inv part')
    (hinit : ∀ k, inv (initial.part k)) (h : Reachable m.step initial s) (k : κ) :
    inv (s.part k) := by
  let all : Compound σ π κ → Prop := fun s => ∀ k, inv (s.part k)
  refine @reachable_invariant _ _ _ all _ _ hinit ?_ h k
  intro s l s' hall hstep k
  rcases step_cases hstep with ⟨_, shared, _, rfl⟩ | ⟨j, part, _, hpart, rfl⟩
  · exact hall k
  · simp only [Function.update_apply]
    split
    · exact hmove _ _ _ _ (hall j) hpart
    · exact hall k

theorem events_of_ne (h : m.owner l ≠ some k) : ofPart k (m.events s l) = [] := by
  unfold events
  cases howner : m.owner l with
  | none => rfl
  | some j =>
      have hjk : j ≠ k := fun heq => h (howner.trans (congrArg some heq))
      exact ofPart_map_of_ne hjk _

/-- A label that means nothing to the part: another part's, or one that leaves the shared
state as it is. -/
def Foreign (m : Parts σ π κ ℓ ε) (k : κ) (l : ℓ) : Prop :=
  m.owner l ≠ some k ∧
    (m.owner l = none → ∀ shared shared', m.change shared l = some shared' → shared' = shared)

/-- Two states that look the same to the part `k`. -/
def Alike (k : κ) (s u : Compound σ π κ) : Prop := s.shared = u.shared ∧ s.part k = u.part k

/-- A foreign label leaves everything the part sees. -/
theorem Foreign.alike (hforeign : m.Foreign k l) (h : m.step s l = some s') : Alike k s' s := by
  rcases step_cases h with ⟨hnone, shared, hshared, rfl⟩ | ⟨j, part, hj, _, rfl⟩
  · exact ⟨hforeign.2 hnone _ _ hshared, rfl⟩
  · have hkj : k ≠ j := fun heq => hforeign.1 (hj.trans (congrArg some heq.symm))
    exact ⟨rfl, Function.update_of_ne hkj _ _⟩

/-- Any other label does the same to both states and emits the same. -/
theorem Alike.step {u : Compound σ π κ} (halike : Alike k s u) (h : m.step s l = some s')
    (hours : m.owner l = none ∨ m.owner l = some k) :
    ∃ u', m.step u l = some u' ∧ Alike k s' u' ∧
      ofPart k (m.events s l) = ofPart k (m.events u l) := by
  obtain ⟨shared, part⟩ := s
  obtain ⟨shared', part'⟩ := u
  obtain ⟨rfl, hpart⟩ : shared = shared' ∧ part k = part' k := halike
  rcases step_cases h with ⟨hnone, changed, hchange, rfl⟩ | ⟨j, moved, hj, hmove, rfl⟩
  · refine ⟨⟨changed, part'⟩, ?_, ⟨rfl, hpart⟩, ?_⟩
    · unfold Parts.step
      simp only [hnone, hchange, Option.map_some]
    · unfold events
      rw [hnone]
  · obtain rfl : j = k := by
      rcases hours with hnone | hk
      · rw [hj] at hnone
        cases hnone
      · exact Option.some.inj (hj.symm.trans hk)
    refine ⟨⟨shared, Function.update part' j moved⟩, ?_, ⟨rfl, ?_⟩, ?_⟩
    · unfold Parts.step
      simp only [hj, ← hpart, hmove, Option.map_some]
    · exact (Function.update_self j moved part).trans (Function.update_self j moved part').symm
    · unfold events
      simp only [hj, hpart]

/-- What a part's moves keep of its state and of what it has emitted so far holds, at the end
of a run, of all that the part has emitted. -/
theorem part_history {inv : List ε → π → Prop} {initial : Compound σ π κ} {ls : List ℓ}
    (hmove : ∀ log shared part l part', inv log part → m.move shared part l = some part' →
      inv (log ++ m.emit shared part l) part')
    (hinit : inv [] (initial.part k)) (hrun : run m.step initial ls = some s) :
    inv (ofPart k (emitted m.step m.events initial ls)) (s.part k) := by
  let ours : List (κ × ε) → Compound σ π κ → Prop := fun log s => inv (ofPart k log) (s.part k)
  refine @run_history _ _ _ _ m.events ours ?_ ls [] initial s hinit hrun
  intro log s l s' hours hstep
  have hemits : ofPart k (log ++ m.events s l) = ofPart k log ++ ofPart k (m.events s l) :=
    ofPart_append k _ _
  unfold ours at hours ⊢
  rw [hemits]
  rcases step_cases hstep with ⟨hnone, shared, _, rfl⟩ | ⟨j, part, hj, hpart, rfl⟩
  · rw [events_of_ne (by rw [hnone]; exact (Option.some_ne_none k).symm), List.append_nil]
    exact hours
  · by_cases hjk : j = k
    · subst hjk
      have hevents : m.events s l = (m.emit s.shared (s.part j) l).map fun e => (j, e) := by
        unfold events
        rw [hj]
      rw [hevents, ofPart_map_self]
      simpa using hmove _ _ _ _ _ hours hpart
    · have hother : Function.update s.part j part k = s.part k :=
        Function.update_of_ne (Ne.symm hjk) _ _
      have hne : m.owner l ≠ some k := fun heq => hjk (Option.some.inj (hj.symm.trans heq))
      rw [events_of_ne hne, List.append_nil]
      simpa only [hother] using hours

/-- Without the labels that mean nothing to it, a part does and emits the same. -/
theorem run_filter {keeps : ℓ → Bool}
    (hkeeps : ∀ l, keeps l = true → m.owner l = none ∨ m.owner l = some k)
    (hdrops : ∀ l, keeps l = false → m.Foreign k l) :
    ∀ {ls : List ℓ} {s s' u : Compound σ π κ}, Alike k s u → run m.step s ls = some s' →
      ∃ u', run m.step u (ls.filter keeps) = some u' ∧ Alike k s' u' ∧
        ofPart k (emitted m.step m.events s ls) =
          ofPart k (emitted m.step m.events u (ls.filter keeps)) := by
  intro ls
  induction ls with
  | nil =>
      intro s s' u halike hrun
      obtain rfl := Option.some.inj hrun
      exact ⟨u, rfl, halike, rfl⟩
  | cons l ls ih =>
      intro s s' u halike hrun
      obtain ⟨mid, hmid, hrest⟩ := run_cons_eq_some_iff.mp hrun
      have hfirst : emitted m.step m.events s (l :: ls) =
          m.events s l ++ emitted m.step m.events mid ls := by
        rw [emitted, hmid]
      rw [hfirst, ofPart_append]
      cases hl : keeps l with
      | true =>
          obtain ⟨v, hv, halike', hevents⟩ := halike.step hmid (hkeeps l hl)
          obtain ⟨u', hrun', hlast, hlater⟩ := ih halike' hrest
          have hfirst' : emitted m.step m.events u (l :: ls.filter keeps) =
              m.events u l ++ emitted m.step m.events v (ls.filter keeps) := by
            rw [emitted, hv]
          rw [List.filter_cons_of_pos hl, hfirst', ofPart_append, hevents, hlater]
          exact ⟨u', run_cons_eq_some_iff.mpr ⟨v, hv, hrun'⟩, hlast, rfl⟩
      | false =>
          have hsame := (hdrops l hl).alike hmid
          have halike' : Alike k mid u :=
            ⟨hsame.1.trans halike.1, hsame.2.trans halike.2⟩
          obtain ⟨u', hrun', hlast, hlater⟩ := ih halike' hrest
          rw [List.filter_cons_of_neg (Bool.eq_false_iff.mp hl), events_of_ne (hdrops l hl).1,
            List.nil_append, hlater]
          exact ⟨u', hrun', hlast, rfl⟩

end

end Parts

end JvmHookFramework.Foundation
