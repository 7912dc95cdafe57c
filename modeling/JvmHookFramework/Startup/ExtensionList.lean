/-
  Startup/ExtensionList.lean --- the format of `jvm-hook-ext.txt`.

  An extension jar lists the classes that are to be loaded, one a line.  Blanks around a
  name, blank lines and lines that start with `#` mean nothing.  A `Layout` is a way to
  write a list; the names carry the proofs that they can be written, so that every layout
  is read as the names it was made of.
-/
import Mathlib.Data.List.DropRight
import Mathlib.Data.Set.List
import JvmHookFramework.Foundation.Lines

set_option autoImplicit false

namespace JvmHookFramework

open Foundation

namespace Startup

/-! ## Reading -/

/-- The characters that `String.trim` removes. -/
def isBlank (c : Char) : Bool := c ≤ ' '

/-- `String.trim` -/
def trim (s : List Char) : List Char := (s.dropWhile isBlank).rdropWhile isBlank

/-- The class that a line names. -/
def className? (line : List Char) : Option (List Char) :=
  match trim line with
  | [] => none
  | c :: rest => if c = '#' then none else some (c :: rest)

/-- The classes that some lines name. -/
def classNames (ls : List (List Char)) : List (List Char) := ls.filterMap className?

/-! ## Writing -/

/-- The name of an extension class, as it can stand on a line. -/
structure ExtensionName where
  chars : List Char
  trimmed : trim chars = chars
  unbroken : Lines.Unbroken chars
  nonempty : chars ≠ []
  not_comment : chars.head? ≠ some '#'

/-- Characters that mean nothing around a name. -/
structure Blanks where
  chars : List Char
  blank : ∀ c ∈ chars, isBlank c = true
  unbroken : Lines.Unbroken chars

inductive Line where
  | entry (before : Blanks) (name : ExtensionName) (after : Blanks)
  | comment (before : Blanks) (text : { text : List Char // Lines.Unbroken text })
  | blank (b : Blanks)

def Line.chars : Line → List Char
  | .entry before name after => before.chars ++ name.chars ++ after.chars
  | .comment before text => before.chars ++ '#' :: text.val
  | .blank b => b.chars

def Line.name? : Line → Option ExtensionName
  | .entry _ name _ => some name
  | .comment _ _ | .blank _ => none

/-- A way to write a list: lines with their ends, the last one without. -/
structure Layout where
  lines : List (Line × Lines.Terminator)
  last : Line

def Layout.render (l : Layout) : List Char :=
  Lines.render (l.lines.map fun line => (line.1.chars, line.2)) l.last.chars

def Layout.names (l : Layout) : List ExtensionName :=
  (l.lines.map Prod.fst ++ [l.last]).filterMap Line.name?

/-! ## Trimming -/

theorem trim_append_left {before : List Char} (h : ∀ c ∈ before, isBlank c = true)
    (s : List Char) : trim (before ++ s) = trim s := by
  rw [trim, List.dropWhile_append_of_pos h, trim]

theorem rdropWhile_append {p : Char → Bool} {after : List Char} (h : ∀ c ∈ after, p c = true)
    (s : List Char) : (s ++ after).rdropWhile p = s.rdropWhile p := by
  rw [List.rdropWhile, List.reverse_append,
    List.dropWhile_append_of_pos fun c hc => h c (List.mem_reverse.mp hc), List.rdropWhile]

theorem trim_append_right {after : List Char} (h : ∀ c ∈ after, isBlank c = true)
    (s : List Char) : trim (s ++ after) = trim s := by
  rw [trim, List.dropWhile_append, trim]
  split
  · rename_i hnil
    rw [List.isEmpty_iff.mp hnil, List.dropWhile_eq_nil_iff.mpr h]
  · exact rdropWhile_append h _

theorem rdropWhile_cons {p : Char → Bool} {c : Char} (h : p c = false) (s : List Char) :
    (c :: s).rdropWhile p = c :: s.rdropWhile p := by
  rw [List.rdropWhile, List.reverse_cons, List.dropWhile_append, List.rdropWhile]
  split
  · rename_i hnil
    rw [List.isEmpty_iff.mp hnil, List.dropWhile_cons_of_neg (by rw [h]; exact Bool.false_ne_true)]
    rfl
  · rw [List.reverse_append]
    rfl

/-- What is left of a text starts with its first character that is no blank. -/
theorem trim_cons {c : Char} (h : isBlank c = false) (s : List Char) :
    trim (c :: s) = c :: s.rdropWhile isBlank := by
  rw [trim, List.dropWhile_cons_of_neg (by rw [h]; exact Bool.false_ne_true), rdropWhile_cons h]

theorem trim_eq_nil_of_blank {s : List Char} (h : ∀ c ∈ s, isBlank c = true) : trim s = [] := by
  rw [trim, List.dropWhile_eq_nil_iff.mpr h, List.rdropWhile_nil]

theorem trim_trim (s : List Char) : trim (trim s) = trim s := by
  cases hs : s.dropWhile isBlank with
  | nil => rw [trim, trim, hs, List.rdropWhile_nil, List.dropWhile_nil, List.rdropWhile_nil]
  | cons c rest =>
      have hc : isBlank c = false := by
        have hne : s.dropWhile isBlank ≠ [] := by
          rw [hs]
          exact List.cons_ne_nil _ _
        have hhead := List.head_dropWhile_not isBlank hne
        simpa only [hs, List.head_cons] using hhead
      have htrim : trim s = c :: rest.rdropWhile isBlank := by rw [trim, hs, rdropWhile_cons hc]
      rw [htrim, trim_cons hc, List.rdropWhile_idempotent]

theorem mem_of_mem_trim {s : List Char} {c : Char} (h : c ∈ trim s) : c ∈ s :=
  List.dropWhile_subset _ ((List.rdropWhile_prefix _ _).subset h)

/-! ## Lines -/

theorem className?_of_trim {line line' : List Char} (h : trim line = trim line') :
    className? line = className? line' := by
  rw [className?, h, className?]

theorem className?_name (name : ExtensionName) : className? name.chars = some name.chars := by
  rw [className?, name.trimmed]
  obtain ⟨chars, _, _, hne, hhash⟩ := name
  cases chars with
  | nil => exact absurd rfl hne
  | cons c rest => exact if_neg fun heq => hhash (congrArg some heq)

/-- A line means what it was written for. -/
theorem className?_chars (line : Line) :
    className? line.chars = line.name?.map ExtensionName.chars := by
  cases line with
  | entry before name after =>
      have htrim : trim (Line.entry before name after).chars = trim name.chars := by
        rw [Line.chars, trim_append_right after.blank, trim_append_left before.blank]
      rw [className?_of_trim htrim, className?_name]
      rfl
  | comment before text =>
      have htrim : trim (Line.comment before text).chars = '#' :: text.val.rdropWhile isBlank := by
        rw [Line.chars, trim_append_left before.blank, trim_cons (by decide)]
      rw [className?, htrim]
      rfl
  | blank b =>
      rw [className?, Line.chars, trim_eq_nil_of_blank b.blank]
      rfl

/-- What is read off a line can be written. -/
theorem exists_name {line n : List Char} (hline : Lines.Unbroken line)
    (h : className? line = some n) : ∃ name : ExtensionName, name.chars = n := by
  have htrim : trim line = n ∧ n ≠ [] ∧ n.head? ≠ some '#' := by
    unfold className? at h
    split at h
    · cases h
    · rename_i c rest heq
      split at h
      · cases h
      · rename_i hhash
        obtain rfl := Option.some.inj h
        exact ⟨heq, List.cons_ne_nil _ _, fun heq => hhash (Option.some.inj heq)⟩
  obtain ⟨rfl, hne, hhash⟩ := htrim
  exact ⟨⟨_, trim_trim line, fun c hc => hline c (mem_of_mem_trim hc), hne, hhash⟩, rfl⟩

theorem Line.unbroken (line : Line) : Lines.Unbroken line.chars := by
  intro c hc
  cases line with
  | entry before name after =>
      rcases List.mem_append.mp hc with hleft | hafter
      · rcases List.mem_append.mp hleft with hbefore | hname
        · exact before.unbroken c hbefore
        · exact name.unbroken c hname
      · exact after.unbroken c hafter
  | comment before text =>
      rcases List.mem_append.mp hc with hbefore | hcomment
      · exact before.unbroken c hbefore
      · rcases List.mem_cons.mp hcomment with rfl | htext
        · decide
        · exact text.property c htext
  | blank b => exact b.unbroken c hc

/-- An empty line names nothing. -/
theorem classNames_filter (ls : List (List Char)) :
    classNames (ls.filter fun line => !line.isEmpty) = classNames ls := by
  rw [classNames, List.filterMap_filter, classNames]
  refine List.filterMap_congr fun line _ => ?_
  cases line with
  | nil => rfl
  | cons c rest => rfl

/-- However a list is written, with whatever line ends, blanks and comments, it is read as the
names it was made of; and whatever is read is a list of names that can be written. -/
theorem extension_list_round_trip :
    (∀ layout : Layout,
      classNames (Lines.lines layout.render) = layout.names.map ExtensionName.chars) ∧
    ∀ text : List Char, ∃ names : List ExtensionName,
      classNames (Lines.lines text) = names.map ExtensionName.chars := by
  constructor
  · intro layout
    have hls : ∀ l ∈ layout.lines.map fun line => (line.1.chars, line.2), Lines.Unbroken l.1 := by
      intro l hl
      obtain ⟨line, _, rfl⟩ := List.mem_map.mp hl
      exact line.1.unbroken
    rw [← classNames_filter, Layout.render, Lines.filter_lines_render hls layout.last.unbroken,
      classNames_filter, Layout.names, List.map_filterMap, List.map_map]
    have hlines : (layout.lines.map (Prod.fst ∘ fun line => (line.1.chars, line.2))) ++
        [layout.last.chars] = (layout.lines.map Prod.fst ++ [layout.last]).map Line.chars := by
      simp
    rw [hlines, classNames, List.filterMap_map]
    exact List.filterMap_congr fun line _ => className?_chars line
  · intro text
    have hnames : ∀ n ∈ classNames (Lines.lines text), ∃ name : ExtensionName, name.chars = n := by
      intro n hn
      obtain ⟨line, hline, hname⟩ := List.mem_filterMap.mp hn
      exact exists_name (Lines.unbroken_lines hline) hname
    have hrange : classNames (Lines.lines text) ∈ Set.range (List.map ExtensionName.chars) := by
      rw [Set.range_list_map]
      exact hnames
    obtain ⟨names, heq⟩ := hrange
    exact ⟨names, heq.symm⟩

end Startup

end JvmHookFramework
