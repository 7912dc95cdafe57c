/-
  Startup/Launcher.lean --- the classes of the framework, unpacked into memory.

  `Launcher.premain` reads `classes.jar` through one buffer and one stream, which all entries
  share, into a map from names to contents; `RamClassLoader` answers from the map what its
  parent does not know.  How many bytes a read delivers is up to the zip stream.
-/
import JvmHookFramework.Foundation.LastWrite
import Mathlib.Logic.Function.Basic

set_option autoImplicit false

namespace JvmHookFramework

open Foundation

namespace Startup

/-! ## The zip stream -/

def bufferSize : Nat := 1024

/-- What one `zip.read(buffer)` delivers. -/
abbrev Chunk := { bytes : List UInt8 // bytes.length ≤ bufferSize }

/-- An entry as the stream delivers it. -/
structure ZipEntry where
  name : List Char
  /-- The reads up to the end of the entry, or up to the failure when it is not intact. -/
  reads : List Chunk
  intact : Bool

/-- The entries up to the end of the stream, or up to the failure when it is not intact. -/
structure ZipInputStream where
  entries : List ZipEntry
  intact : Bool

def ZipEntry.isDirectory (e : ZipEntry) : Bool := e.name.getLast? = some '/'

inductive LaunchError where
  | ioException
  | classNotFound (name : List Char)
  deriving DecidableEq, Repr

/-! ## Launcher -/

/-- The local variables of `premain`. -/
structure Unpacking where
  resources : List Char → Option (List UInt8)
  bos : List UInt8
  buffer : List UInt8

def Unpacking.initial : Unpacking := ⟨fun _ => none, [], List.replicate bufferSize 0⟩

/-- `zip.read(buffer)` overwrites the front of the buffer. -/
def Unpacking.read (u : Unpacking) (bytes : Chunk) : Unpacking :=
  { u with buffer := bytes.val ++ u.buffer.drop bytes.val.length }

/-- `bos.write(buffer, 0, len)` -/
def Unpacking.write (u : Unpacking) (len : Nat) : Unpacking :=
  { u with bos := u.bos ++ u.buffer.take len }

def Unpacking.readAll (u : Unpacking) : List Chunk → Unpacking
  | [] => u
  | bytes :: more => ((u.read bytes).write bytes.val.length).readAll more

/-- `n.charAt(0) == '/'` is cut off. -/
def entryName : List Char → List Char
  | [] => []
  | c :: n => if c = '/' then n else c :: n

def Unpacking.put (u : Unpacking) (name : List Char) : Unpacking :=
  { u with resources := Function.update u.resources (entryName name) (some u.bos) }

/-- The loop over the entries.  A directory that is not intact fails when it is skipped. -/
def Unpacking.entry (u : Unpacking) (e : ZipEntry) : Except LaunchError Unpacking :=
  if e.isDirectory then
    if e.intact then .ok u else .error .ioException
  else
    let u := ({ u with bos := [] } : Unpacking).readAll e.reads
    if e.intact then .ok (u.put e.name) else .error .ioException

def Unpacking.all (u : Unpacking) : List ZipEntry → Except LaunchError Unpacking
  | [] => .ok u
  | e :: more =>
      match u.entry e with
      | .error error => .error error
      | .ok u => u.all more

/-! ## RamClassLoader -/

/-- The loader of `Launcher`, which is the parent of the one that it makes. -/
structure Parent where
  resource : List Char → Option (List UInt8)
  defines : List Char → Bool

structure RamClassLoader where
  parent : Parent
  res : List Char → Option (List UInt8)

/-- Where a class comes from. -/
inductive ClassSource where
  | parent
  | defineClass (bytes : List UInt8)
  deriving DecidableEq, Repr

/-- `name.replace('.', '/') + ".class"` -/
def classFile (name : List Char) : List Char :=
  (name.map fun c => if c = '.' then '/' else c) ++ ['.', 'c', 'l', 'a', 's', 's']

namespace RamClassLoader

variable (cl : RamClassLoader)

def getResourceAsStream (name : List Char) : Option (List UInt8) :=
  match cl.parent.resource name with
  | none => cl.res name
  | some bytes => some bytes

def findClass (name : List Char) : Option ClassSource :=
  (cl.res (classFile name)).map .defineClass

/-- `ClassLoader.loadClass` asks the parent first. -/
def loadClass (name : List Char) : Option ClassSource :=
  if cl.parent.defines name then some .parent else cl.findClass name

end RamClassLoader

def bootstrapName : List Char := "io.github.karlatemp.jvmhook.core.Bootstrap".toList

/-- `none` is the missing resource `classes.jar`. -/
def Launcher.premain (parent : Parent) (zip : Option ZipInputStream) :
    Except LaunchError (RamClassLoader × ClassSource) :=
  match zip with
  | none => .error .ioException
  | some zip =>
      match Unpacking.initial.all zip.entries with
      | .error error => .error error
      | .ok u =>
          if zip.intact then
            let cl : RamClassLoader := ⟨parent, u.resources⟩
            match cl.loadClass bootstrapName with
            | none => .error (.classNotFound bootstrapName)
            | some source => .ok (cl, source)
          else .error .ioException

/-! ## What the map holds -/

def ZipEntry.content (e : ZipEntry) : List UInt8 := (e.reads.map Subtype.val).flatten

/-- What the entry is under the name. -/
def ZipEntry.under (name : List Char) (e : ZipEntry) : Option (List UInt8) :=
  if e.isDirectory = false ∧ entryName e.name = name then some e.content else none

/-- Every byte of the stream is delivered. -/
def ZipInputStream.Intact (zip : ZipInputStream) : Prop :=
  zip.intact = true ∧ ∀ e ∈ zip.entries, e.intact = true

/-- The last of the entries with the name. -/
def ZipInputStream.lookup (zip : ZipInputStream) (name : List Char) : Option (List UInt8) :=
  lastSome (ZipEntry.under name) zip.entries

/-- What earlier reads have left in the buffer is not written. -/
theorem Unpacking.write_read (u : Unpacking) (bytes : Chunk) :
    ((u.read bytes).write bytes.val.length).bos = u.bos ++ bytes.val := by
  rw [Unpacking.write, Unpacking.read, List.take_left]

theorem Unpacking.readAll_bos (u : Unpacking) (reads : List Chunk) :
    (u.readAll reads).bos = u.bos ++ (reads.map Subtype.val).flatten := by
  induction reads generalizing u with
  | nil => rw [Unpacking.readAll, List.map_nil, List.flatten_nil, List.append_nil]
  | cons bytes more ih =>
      rw [Unpacking.readAll, ih, Unpacking.write_read, List.map_cons, List.flatten_cons,
        List.append_assoc]

theorem Unpacking.readAll_resources (u : Unpacking) (reads : List Chunk) :
    (u.readAll reads).resources = u.resources := by
  induction reads generalizing u with
  | nil => rfl
  | cons bytes more ih =>
      rw [Unpacking.readAll, ih]
      rfl

theorem Unpacking.put_resources (u : Unpacking) (n name : List Char) :
    (u.put n).resources name = if name = entryName n then some u.bos else u.resources name :=
  Function.update_apply _ _ _ _

/-- An entry that is intact overwrites its name and no other. -/
theorem Unpacking.entry_of_intact (u : Unpacking) {e : ZipEntry} (hintact : e.intact = true) :
    ∃ u', u.entry e = .ok u' ∧ ∀ name, u'.resources name = (e.under name).or (u.resources name) := by
  cases hdirectory : e.isDirectory with
  | true =>
      refine ⟨u, by simp [Unpacking.entry, hdirectory, hintact], fun name => ?_⟩
      simp [ZipEntry.under, hdirectory]
  | false =>
      refine ⟨(({ u with bos := [] } : Unpacking).readAll e.reads).put e.name, ?_, fun name => ?_⟩
      · simp [Unpacking.entry, hdirectory, hintact]
      · rw [Unpacking.put_resources, Unpacking.readAll_bos, Unpacking.readAll_resources,
          List.nil_append, ZipEntry.under, ZipEntry.content]
        by_cases hname : name = entryName e.name
        · rw [if_pos hname, if_pos ⟨hdirectory, hname.symm⟩, Option.some_or]
        · rw [if_neg hname, if_neg fun h => hname h.2.symm, Option.none_or]

theorem Unpacking.entry_of_not_intact (u : Unpacking) {e : ZipEntry} (hbroken : e.intact = false) :
    u.entry e = .error .ioException := by
  cases hdirectory : e.isDirectory <;> simp [Unpacking.entry, hdirectory, hbroken]

theorem Unpacking.all_cons {u mid : Unpacking} {e : ZipEntry} (h : u.entry e = .ok mid)
    (more : List ZipEntry) : u.all (e :: more) = mid.all more := by
  simp only [Unpacking.all, h]

theorem Unpacking.all_of_intact (u : Unpacking) {entries : List ZipEntry}
    (hintact : ∀ e ∈ entries, e.intact = true) :
    ∃ u', u.all entries = .ok u' ∧
      ∀ name, u'.resources name = (lastSome (ZipEntry.under name) entries).or (u.resources name) := by
  induction entries generalizing u with
  | nil => exact ⟨u, rfl, fun _ => rfl⟩
  | cons e more ih =>
      obtain ⟨he, hmore⟩ := List.forall_mem_cons.mp hintact
      obtain ⟨mid, hmid, hput⟩ := u.entry_of_intact he
      obtain ⟨u', hall, hlast⟩ := ih mid hmore
      refine ⟨u', (Unpacking.all_cons hmid more).trans hall, fun name => ?_⟩
      rw [hlast, hput, lastSome_cons, Option.or_assoc]

theorem Unpacking.all_of_not_intact (u : Unpacking) {entries : List ZipEntry}
    (hbroken : ¬ ∀ e ∈ entries, e.intact = true) : u.all entries = .error .ioException := by
  induction entries generalizing u with
  | nil => exact absurd (fun _ he => absurd he List.not_mem_nil) hbroken
  | cons e more ih =>
      cases he : e.intact with
      | false => rw [Unpacking.all, u.entry_of_not_intact he]
      | true =>
          obtain ⟨mid, hmid, _⟩ := u.entry_of_intact he
          rw [Unpacking.all_cons hmid more]
          exact ih mid fun hmore => hbroken (List.forall_mem_cons.mpr ⟨he, hmore⟩)

/-- However the archive is delivered, the loader serves what it holds: of the resources and
classes that the parent does not know, the last entry of that name, which may have a leading
slash.  An archive that cannot be read to its end is not launched. -/
theorem launcher_serves_the_archive (parent : Parent) (zip : ZipInputStream) :
    (¬ zip.Intact ∧ Launcher.premain parent (some zip) = .error .ioException) ∨
      (zip.Intact ∧ ∃ cl : RamClassLoader,
        (∀ name, cl.getResourceAsStream name = (parent.resource name).or (zip.lookup name)) ∧
        (∀ name, cl.loadClass name =
          if parent.defines name then some .parent
          else (zip.lookup (classFile name)).map .defineClass) ∧
        Launcher.premain parent (some zip) =
          match cl.loadClass bootstrapName with
          | none => .error (.classNotFound bootstrapName)
          | some source => .ok (cl, source)) := by
  by_cases hentries : ∀ e ∈ zip.entries, e.intact = true
  · obtain ⟨u, hall, hlast⟩ := Unpacking.initial.all_of_intact hentries
    have hlookup : u.resources = zip.lookup := by
      funext name
      rw [hlast, Unpacking.initial, Option.or_none, ZipInputStream.lookup]
    cases hend : zip.intact with
    | false =>
        refine Or.inl ⟨fun h => Bool.false_ne_true (hend.symm.trans h.1), ?_⟩
        simp [Launcher.premain, hall, hend]
    | true =>
        refine Or.inr ⟨⟨hend, hentries⟩, ⟨parent, zip.lookup⟩, fun name => ?_, fun _ => rfl, ?_⟩
        · rw [RamClassLoader.getResourceAsStream]
          cases parent.resource name <;> rfl
        · simp [Launcher.premain, hall, hend, hlookup]
  · exact Or.inl ⟨fun h => hentries h.2, by
      rw [Launcher.premain, Unpacking.initial.all_of_not_intact hentries]⟩

end Startup

end JvmHookFramework
