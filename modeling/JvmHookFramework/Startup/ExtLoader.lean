/-
  Startup/ExtLoader.lean --- loading the extensions.

  `ExtLoader.load` goes through the jars of a directory and through the classes that each of
  them lists, and calls `load` of every class.  The first exception ends both loops.  The
  model keeps what was done in order; whatever the environment answers may depend on it,
  since it is code of the extensions that runs in between.
-/
import JvmHookFramework.Jvm.Interface
import JvmHookFramework.Startup.ExtensionList

set_option autoImplicit false

namespace JvmHookFramework

open Foundation

namespace Startup

inductive EventKind where
  | classPrepare
  | methodEntry
  | methodExit
  deriving DecidableEq, Repr

/-- What the startup does to its environment. -/
inductive Effect where
  | enable (event : EventKind)
  | mkdirs (dir : List Char)
  /-- `setExtClassLoader` with a loader over these jars -/
  | setExtClassLoader (urls : List (List Char))
  /-- `load()` of the class is called. -/
  | load (target : Klass)
  /-- The class has no `load()`, which is reported. -/
  | notLoaded (target : Klass)
  deriving DecidableEq, Repr

inductive Throwable where
  | zipException
  | ioException
  | classNotFound (line : List Char)
  | thrownByLoad (target : Klass)
  deriving DecidableEq, Repr

/-- What a file is when it is opened as a jar. -/
inductive Archive where
  | unreadable
  /-- It has no `jvm-hook-ext.txt`. -/
  | unlisted
  /-- The text of `jvm-hook-ext.txt`; when it is not intact, reading on past it throws. -/
  | listing (text : List Char) (intact : Bool)
  deriving DecidableEq, Repr

structure File where
  name : List Char
  isFile : Bool
  archive : Archive
  deriving DecidableEq, Repr

/-- What the environment answers, given what was done. -/
structure Env where
  /-- `JVM_HOOK_FRAMEWORK_EXTENSIONS` -/
  getenv : Option (List Char)
  getProperty : Option (List Char)
  /-- `none` is null: there is no such directory. -/
  listFiles : List Char → Option (List File)
  /-- The class `ExtLoader` is there. -/
  extLoader : Bool
  forName : List Effect → List Char → Option Klass
  /-- The class has a method `static void load()` and its initializer does not throw. -/
  hasLoad : List Effect → Klass → Bool
  /-- `load()` returns without an exception. -/
  completes : List Effect → Klass → Bool

abbrev Load := EStateM Throwable (List Effect)

def perform (e : Effect) : Load Unit := modify fun done => done ++ [e]

section

variable (env : Env)

def invokeLoad (target : Klass) : Load Unit := do
  let done ← get
  if env.hasLoad done target then
    perform (.load target)
    if env.completes done target then pure () else throw (.thrownByLoad target)
  else perform (.notLoaded target)

/-- `NativeBridge.invokeLoad(Class.forName(line, false, ucl))` -/
def loadClass (line : List Char) : Load Unit := do
  let done ← get
  match env.forName done line with
  | none => throw (.classNotFound line)
  | some target => invokeLoad env target

/-- What the loop over the lines does with one of them. -/
def readLine (line : List Char) : Load Unit :=
  match trim line with
  | [] => pure ()
  | c :: rest => if c = '#' then pure () else loadClass env (c :: rest)

def loadJar (jar : File) : Load Unit :=
  match jar.archive with
  | .unreadable => throw .zipException
  | .unlisted => pure ()
  | .listing text true => (Lines.lines text).forM (readLine env)
  | .listing text false => do
      (Lines.terminated text).forM (readLine env)
      throw .ioException

/-- The directory of the extensions, and whether it was set. -/
def Env.exts : List Char × Bool :=
  match env.getenv with
  | some exts => (exts, true)
  | none =>
      match env.getProperty with
      | some exts => (exts, true)
      | none => ("jvm-hook-framework-extensions".toList, false)

def Env.jars : List File :=
  ((env.listFiles env.exts.1).getD []).filter fun f =>
    f.isFile && ['.', 'j', 'a', 'r'].isSuffixOf f.name

def ExtLoader.load : Load Unit := do
  if env.exts.2 then pure () else perform (.mkdirs env.exts.1)
  perform (.setExtClassLoader (env.jars.map File.name))
  env.jars.forM (loadJar env)

/-- What was done, and the exception that is pending. -/
def ends : EStateM.Result Throwable (List Effect) Unit → List Effect × Option Throwable
  | .ok _ done => (done, none)
  | .error e done => (done, some e)

/-- The exception of a `FindClass` that fails is cleared, that of `load` stays pending. -/
def initializeExts : List Effect × Option Throwable :=
  let (done, pending) :=
    if env.extLoader then ends ((ExtLoader.load env).run [.enable .classPrepare])
    else ([.enable .classPrepare], none)
  (done ++ [.enable .methodEntry, .enable .methodExit], pending)

/-! ## What is to be loaded -/

/-- A class to be loaded, or a failure on the way to the next one. -/
inductive Item where
  | name (line : List Char)
  | broken (e : Throwable)
  deriving DecidableEq, Repr

def File.items (jar : File) : List Item :=
  match jar.archive with
  | .unreadable => [.broken .zipException]
  | .unlisted => []
  | .listing text true => (classNames (Lines.lines text)).map .name
  | .listing text false => (classNames (Lines.terminated text)).map .name ++ [.broken .ioException]

/-- The classes that the jars list, in the order of the jars and of their lines. -/
def Env.plan : List Item := env.jars.flatMap File.items

/-- What is done before the first class is loaded. -/
def Env.opening : List Effect :=
  .enable .classPrepare ::
    ((if env.exts.2 then [] else [.mkdirs env.exts.1]) ++
      [.setExtClassLoader (env.jars.map File.name)])

/-- The same behind the first event. -/
def Env.preparations : List Effect :=
  (if env.exts.2 then [] else [.mkdirs env.exts.1]) ++
    [.setExtClassLoader (env.jars.map File.name)]

/-- What is done with a class that is found. -/
def Env.effect (done : List Effect) (target : Klass) : Effect :=
  if env.hasLoad done target then .load target else .notLoaded target

/-- The classes are found one after the other, and no `load()` throws. -/
inductive Loads : List Effect → List (List Char × Klass) → List Effect → Prop where
  | nil (done : List Effect) : Loads done [] done
  | cons {done done' : List Effect} {line : List Char} {target : Klass}
      {more : List (List Char × Klass)} (hfound : env.forName done line = some target)
      (hcompletes : env.hasLoad done target = true → env.completes done target = true)
      (hmore : Loads (done ++ [env.effect done target]) more done') :
      Loads done ((line, target) :: more) done'

/-- Where loading ends, what is done last, and with which exception. -/
inductive Stops (done : List Effect) : List Item → List Effect → Option Throwable → Prop where
  | finished : Stops done [] [] none
  | broken (e : Throwable) (rest : List Item) : Stops done (.broken e :: rest) [] (some e)
  | notFound {line : List Char} (rest : List Item) (hfound : env.forName done line = none) :
      Stops done (.name line :: rest) [] (some (.classNotFound line))
  | thrown {line : List Char} {target : Klass} (rest : List Item)
      (hfound : env.forName done line = some target) (hload : env.hasLoad done target = true)
      (hthrows : env.completes done target = false) :
      Stops done (.name line :: rest) [.load target] (some (.thrownByLoad target))

end

/-! ## The loops -/

section

variable {env : Env}

def loadItem (env : Env) : Item → Load Unit
  | .name line => loadClass env line
  | .broken e => throw e

theorem readLine_eq (env : Env) (line : List Char) :
    readLine env line = (className? line).elim (pure ()) (loadClass env) := by
  unfold readLine className?
  cases trim line with
  | nil => rfl
  | cons c rest =>
      by_cases hhash : c = '#'
      · simp only [hhash, if_true, Option.elim_none]
      · simp only [hhash, if_false, Option.elim_some]

/-- To read the lines is to load the classes they name. -/
theorem forM_readLine (env : Env) (ls : List (List Char)) :
    forM ls (readLine env) = forM ((classNames ls).map Item.name) (loadItem env) := by
  unfold classNames
  induction ls with
  | nil => rfl
  | cons line ls ih =>
      rw [List.forM_cons, readLine_eq, ih]
      cases hline : className? line with
      | none => rw [List.filterMap_cons_none hline, Option.elim_none, pure_bind]
      | some n =>
          rw [List.filterMap_cons_some hline, List.map_cons, List.forM_cons, Option.elim_some]
          rfl

theorem loadJar_eq (env : Env) (jar : File) :
    loadJar env jar = forM jar.items (loadItem env) := by
  unfold loadJar File.items
  split
  · rfl
  · rfl
  · exact forM_readLine env _
  · rw [List.forM_append, ← forM_readLine]
    rfl

/-- The two loops are one over the plan. -/
theorem forM_loadJar (env : Env) (jars : List File) :
    forM jars (loadJar env) = forM (jars.flatMap File.items) (loadItem env) := by
  induction jars with
  | nil => rfl
  | cons jar jars ih =>
      rw [List.forM_cons, List.flatMap_cons, List.forM_append, loadJar_eq, ih]

theorem run_loadClass (env : Env) (line : List Char) (done : List Effect) :
    (loadClass env line).run done =
      match env.forName done line with
      | none => .error (.classNotFound line) done
      | some target =>
          if env.hasLoad done target && !env.completes done target then
            .error (.thrownByLoad target) (done ++ [.load target])
          else .ok () (done ++ [env.effect done target]) := by
  cases hfound : env.forName done line with
  | none => simp only [loadClass, EStateM.run_bind, EStateM.run_get, hfound, EStateM.run_throw]
  | some target =>
      cases hload : env.hasLoad done target with
      | false =>
          simp [loadClass, invokeLoad, Env.effect, perform, hfound, hload]
      | true =>
          cases hcompletes : env.completes done target with
          | false =>
              simp [loadClass, invokeLoad, perform, hfound, hload, hcompletes]
          | true =>
              simp [loadClass, invokeLoad, Env.effect, perform, hfound, hload, hcompletes]

/-- The loop loads classes until something fails. -/
theorem run_forM_loadItem (env : Env) (items : List Item) (done : List Effect) :
    ∃ loaded rest mid last pending, items = loaded.map (fun l => .name l.1) ++ rest ∧
      Loads env done loaded mid ∧ Stops env mid rest last pending ∧
      ends ((forM items (loadItem env)).run done) = (mid ++ last, pending) := by
  induction items generalizing done with
  | nil => exact ⟨[], [], done, [], none, rfl, .nil done, .finished, by simp [ends]⟩
  | cons item items ih =>
      cases item with
      | broken e =>
          exact ⟨[], _, done, [], some e, rfl, .nil done, .broken e items,
            by rw [List.append_nil]; rfl⟩
      | name line =>
          have hrun := run_loadClass env line done
          rw [List.forM_cons, EStateM.run_bind, loadItem, hrun]
          cases hfound : env.forName done line with
          | none =>
              exact ⟨[], _, done, [], _, rfl, .nil done, .notFound items hfound,
                by rw [List.append_nil]; rfl⟩
          | some target =>
              cases hfails : env.hasLoad done target && !env.completes done target with
              | true =>
                  obtain ⟨hload, hthrows⟩ := Bool.and_eq_true_iff.mp hfails
                  exact ⟨[], _, done, [.load target], _, rfl, .nil done,
                    .thrown items hfound hload (by simpa using hthrows), by simp only [hfails]; rfl⟩
              | false =>
                  obtain ⟨loaded, rest, mid, last, pending, hitems, hloads, hstops, hends⟩ :=
                    ih (done ++ [env.effect done target])
                  refine ⟨(line, target) :: loaded, rest, mid, last, pending, ?_,
                    .cons hfound (fun hload => ?_) hloads, hstops, ?_⟩
                  · rw [hitems]
                    rfl
                  · simpa [hload] using hfails
                  · rw [← hends]
                    simp only [hfails, Bool.false_eq_true, if_false]

/-- The startup loads the plan. -/
theorem initializeExts_of_ends (hpresent : env.extLoader = true) {done : List Effect}
    {pending : Option Throwable}
    (h : ends ((forM env.plan (loadItem env)).run env.opening) = (done, pending)) :
    initializeExts env = (done ++ [.enable .methodEntry, .enable .methodExit], pending) := by
  have hload : (ExtLoader.load env).run [.enable .classPrepare] =
      (forM env.plan (loadItem env)).run env.opening := by
    rw [Env.plan, ← forM_loadJar]
    cases hset : env.exts.2 <;> simp [ExtLoader.load, Env.opening, perform, hset]
  simp only [initializeExts, hpresent, if_true, hload, h]

theorem Loads.extends {done done' : List Effect} {loaded : List (List Char × Klass)}
    (h : Loads env done loaded done') :
    ∃ more, done' = done ++ more ∧ ∀ e ∈ more, ∃ target, e = .load target ∨ e = .notLoaded target := by
  induction h with
  | nil done => exact ⟨[], (List.append_nil done).symm, fun _ he => absurd he List.not_mem_nil⟩
  | @cons done done' line target more hfound hcompletes hmore ih =>
      obtain ⟨later, rfl, hlater⟩ := ih
      refine ⟨env.effect done target :: later, by simp, ?_⟩
      refine List.forall_mem_cons.mpr ⟨⟨target, ?_⟩, hlater⟩
      unfold Env.effect
      split
      · exact Or.inl rfl
      · exact Or.inr rfl

theorem Stops.last {done last : List Effect} {items : List Item} {pending : Option Throwable}
    (h : Stops env done items last pending) :
    ∀ e ∈ last, ∃ target, e = .load target ∨ e = .notLoaded target := by
  cases h with
  | finished | broken | notFound => exact fun _ he => absurd he List.not_mem_nil
  | @thrown line target =>
      intro e he
      exact ⟨target, Or.inl (List.mem_singleton.mp he)⟩

/-- Between the opening and the end only classes are loaded. -/
theorem exists_ends (env : Env) :
    ∃ done pending,
      ends ((forM env.plan (loadItem env)).run env.opening) = (env.opening ++ done, pending) ∧
      ∀ e ∈ done, ∃ target, e = .load target ∨ e = .notLoaded target := by
  obtain ⟨_, _, mid, last, pending, _, hloads, hstops, hends⟩ :=
    run_forM_loadItem env env.plan env.opening
  obtain ⟨more, rfl, hmore⟩ := hloads.extends
  refine ⟨more ++ last, pending, by rw [hends, List.append_assoc], fun e he => ?_⟩
  rcases List.mem_append.mp he with hm | hl
  · exact hmore e hm
  · exact hstops.last e hl

theorem Env.mem_preparations {e : Effect} (h : e ∈ env.preparations) :
    e = .mkdirs env.exts.1 ∨ e = .setExtClassLoader (env.jars.map File.name) := by
  unfold Env.preparations at h
  rcases List.mem_append.mp h with hmkdirs | hset
  · split at hmkdirs
    · cases hmkdirs
    · exact Or.inl (List.mem_singleton.mp hmkdirs)
  · exact Or.inr (List.mem_singleton.mp hset)

/-- What is not in the first part of a list stands behind it. -/
theorem prefix_of_notMem {α : Type} {first rest before after : List α} {e : α} (he : e ∉ first)
    (h : first ++ rest = before ++ e :: after) : first <+: before := by
  rcases List.append_eq_append_iff.mp h with ⟨as, hbefore, _⟩ | ⟨as, hfirst, hrest⟩
  · exact ⟨as, hbefore.symm⟩
  · cases as with
    | nil => exact ⟨[], by simpa using hfirst⟩
    | cons a as =>
        obtain ⟨rfl, _⟩ := List.cons.inj hrest
        exact absurd (hfirst ▸ List.mem_append_right _ List.mem_cons_self) he

end

/-- In every environment, the classes that the jars list are found and loaded in the order of
the jars and of their lines, up to the first that is not found or whose `load()` throws or
to the first jar that cannot be read; the exception stays pending, and the method events
are enabled all the same. -/
theorem extensions_load_in_order (env : Env) (hpresent : env.extLoader = true) :
    ∃ loaded rest mid last pending, env.plan = loaded.map (fun l => .name l.1) ++ rest ∧
      Loads env env.opening loaded mid ∧ Stops env mid rest last pending ∧
      initializeExts env =
        (mid ++ last ++ [.enable .methodEntry, .enable .methodExit], pending) := by
  obtain ⟨loaded, rest, mid, last, pending, hplan, hloads, hstops, hends⟩ :=
    run_forM_loadItem env env.plan env.opening
  exact ⟨loaded, rest, mid, last, pending, hplan, hloads, hstops,
    initializeExts_of_ends hpresent hends⟩

/-- A jar that lists three classes, of which the second throws. -/
def throwingEnv : Env where
  getenv := some ['e']
  getProperty := none
  listFiles _ := some [⟨['a', '.', 'j', 'a', 'r'], true,
    .listing ['#', 'x', '\n', 'A', '\r', '\n', ' ', 'B', '\n', 'C'] true⟩]
  extLoader := true
  forName _ line := some ⟨line.length⟩
  hasLoad _ _ := true
  completes done _ := done.length < 3

theorem extensions_load_in_order_throwing :
    ∃ loaded rest mid last pending,
      [.name ['A'], .name ['B'], .name ['C']] = loaded.map (fun l => Item.name l.1) ++ rest ∧
      Loads throwingEnv
        [.enable .classPrepare, .setExtClassLoader [['a', '.', 'j', 'a', 'r']]] loaded mid ∧
      Stops throwingEnv mid rest last pending ∧
      ([.enable .classPrepare, .setExtClassLoader [['a', '.', 'j', 'a', 'r']], .load ⟨1⟩, .load ⟨1⟩,
        .enable .methodEntry, .enable .methodExit], some (.thrownByLoad ⟨1⟩)) =
        (mid ++ last ++ [.enable .methodEntry, .enable .methodExit], pending) :=
  extensions_load_in_order throwingEnv rfl

/-- Extension code runs only while class prepare events are enabled and the loader of the
extensions is set; and only behind all of it, and in any case, method events are enabled. -/
theorem method_events_enabled_last (env : Env) :
    ∃ between, (initializeExts env).1 = .enable .classPrepare ::
        (between ++ [.enable .methodEntry, .enable .methodExit]) ∧
      (∀ event, .enable event ∉ between) ∧
      ∀ before after target,
        (between = before ++ .load target :: after ∨ between = before ++ .notLoaded target :: after) →
        .setExtClassLoader (env.jars.map File.name) ∈ before := by
  cases hpresent : env.extLoader with
  | false =>
      refine ⟨[], by simp [initializeExts, hpresent], fun _ he => absurd he List.not_mem_nil, ?_⟩
      rintro before after target (heq | heq)
      · exact absurd heq.symm (List.append_ne_nil_of_right_ne_nil _ (List.cons_ne_nil _ _))
      · exact absurd heq.symm (List.append_ne_nil_of_right_ne_nil _ (List.cons_ne_nil _ _))
  | true =>
      obtain ⟨done, pending, hends, hdone⟩ := exists_ends env
      have heq := initializeExts_of_ends hpresent hends
      refine ⟨env.preparations ++ done, ?_, fun event he => ?_, fun before after target hsplit => ?_⟩
      · rw [heq, Env.opening, Env.preparations, List.cons_append, List.cons_append]
      · rcases List.mem_append.mp he with hp | hd
        · rcases Env.mem_preparations hp with h | h <;> cases h
        · obtain ⟨target, h | h⟩ := hdone _ hd <;> cases h
      · have hset : .setExtClassLoader (env.jars.map File.name) ∈ env.preparations :=
          List.mem_append_right _ List.mem_cons_self
        -- What is done with a class is no preparation, so it stands behind all of them.
        rcases hsplit with h | h
        · refine (prefix_of_notMem (fun he => ?_) h).subset hset
          rcases Env.mem_preparations he with h | h <;> cases h
        · refine (prefix_of_notMem (fun he => ?_) h).subset hset
          rcases Env.mem_preparations he with h | h <;> cases h

end Startup

end JvmHookFramework
