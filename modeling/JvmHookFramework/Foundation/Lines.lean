/-
  Foundation/Lines.lean --- the lines of a text.

  A line ends with a line feed, with a carriage return, with both in this order, or where
  the text ends.  The reader goes through the text once and skips a line feed behind a
  carriage return.  So an empty line may be lost between a carriage return and a line feed;
  every other line is read as it was written, whatever ends it.
-/
import Mathlib.Data.List.Basic

set_option autoImplicit false

namespace JvmHookFramework.Foundation.Lines

/-- Nothing in it ends a line. -/
def Unbroken (line : List Char) : Prop := ∀ c ∈ line, c ≠ '\n' ∧ c ≠ '\r'

inductive Terminator where
  | lf
  | cr
  | crlf
  deriving DecidableEq, Repr

def Terminator.chars : Terminator → List Char
  | .lf => ['\n']
  | .cr => ['\r']
  | .crlf => ['\r', '\n']

/-- The lines that are ended, and what stands behind the last of them; `line` was read
before, and `skipLF` says that the last character read was a carriage return. -/
def scan (line : List Char) (skipLF : Bool) : List Char → List (List Char) × List Char
  | [] => ([], line)
  | '\n' :: rest =>
      if skipLF then scan line false rest
      else (line :: (scan [] false rest).1, (scan [] false rest).2)
  | '\r' :: rest => (line :: (scan [] true rest).1, (scan [] true rest).2)
  | c :: rest => scan (line ++ [c]) false rest

/-- The lines that are ended. -/
def terminated (text : List Char) : List (List Char) := (scan [] false text).1

/-- All lines; the last one may be ended by the text. -/
def lines (text : List Char) : List (List Char) :=
  terminated text ++ [(scan [] false text).2].filter fun line => !line.isEmpty

/-- A text of lines, of which the last is not ended. -/
def render (ls : List (List Char × Terminator)) (last : List Char) : List Char :=
  ls.flatMap (fun l => l.1 ++ l.2.chars) ++ last

theorem scan_cons {c : Char} (h : c ≠ '\n' ∧ c ≠ '\r') (line : List Char) (skipLF : Bool)
    (rest : List Char) : scan line skipLF (c :: rest) = scan (line ++ [c]) false rest := by
  rw [scan]
  · exact h.1
  · exact h.2

/-- A part without a line end is added to the line. -/
theorem scan_append {part : List Char} (h : Unbroken part) (hne : part ≠ []) (line : List Char)
    (skipLF : Bool) (rest : List Char) :
    scan line skipLF (part ++ rest) = scan (line ++ part) false rest := by
  induction part generalizing line skipLF with
  | nil => exact absurd rfl hne
  | cons c part ih =>
      rw [List.cons_append, scan_cons (h c List.mem_cons_self)]
      by_cases hnil : part = []
      · rw [hnil, List.nil_append]
      · have hpart : Unbroken part := fun d hd => h d (List.mem_cons_of_mem c hd)
        rw [ih hpart hnil, List.append_assoc, List.singleton_append]

/-- What a terminator does behind a line: it ends it, or nothing is left of an empty one. -/
theorem scan_terminator (line : List Char) (skipLF : Bool) (hempty : skipLF = true → line = [])
    (t : Terminator) (rest : List Char) :
    ∃ skip lost, scan line skipLF (t.chars ++ rest) =
        (lost ++ (scan [] skip rest).1, (scan [] skip rest).2) ∧
      lost.filter (fun line => !line.isEmpty) = [line].filter fun line => !line.isEmpty := by
  cases t with
  | lf =>
      cases skipLF with
      | false => exact ⟨false, [line], rfl, rfl⟩
      | true =>
          rw [hempty rfl]
          exact ⟨false, [], rfl, rfl⟩
  | cr => exact ⟨true, [line], rfl, rfl⟩
  | crlf => exact ⟨false, [line], rfl, rfl⟩

theorem scan_render {ls : List (List Char × Terminator)} {last : List Char}
    (hls : ∀ l ∈ ls, Unbroken l.1) (hlast : Unbroken last) (skipLF : Bool) :
    (scan [] skipLF (render ls last)).1.filter (fun line => !line.isEmpty) =
        (ls.map Prod.fst).filter (fun line => !line.isEmpty) ∧
      (scan [] skipLF (render ls last)).2 = last := by
  induction ls generalizing skipLF with
  | nil =>
      by_cases hnil : last = []
      · rw [hnil]
        exact ⟨rfl, rfl⟩
      · have hscan := scan_append hlast hnil [] skipLF []
        rw [List.append_nil, List.nil_append] at hscan
        rw [render, List.flatMap_nil, List.nil_append, hscan]
        exact ⟨rfl, rfl⟩
  | cons l ls ih =>
      obtain ⟨line, t⟩ := l
      obtain ⟨hline, hrest⟩ := List.forall_mem_cons.mp hls
      have hcons : render ((line, t) :: ls) last = line ++ (t.chars ++ render ls last) := by
        simp [render]
      -- An empty line leaves the reader where it is, any other one clears `skipLF`.
      have hread : ∃ skip, (skip = true → line = []) ∧
          scan [] skipLF (render ((line, t) :: ls) last) =
            scan line skip (t.chars ++ render ls last) := by
        by_cases hnil : line = []
        · exact ⟨skipLF, fun _ => hnil, by rw [hcons, hnil, List.nil_append]⟩
        · refine ⟨false, fun h => absurd h Bool.false_ne_true, ?_⟩
          rw [hcons, scan_append hline hnil, List.nil_append]
      obtain ⟨skip, hempty, hscan⟩ := hread
      obtain ⟨skip', lost, hscan', hlost⟩ := scan_terminator line skip hempty t (render ls last)
      obtain ⟨hlines, hend⟩ := ih hrest skip'
      rw [hscan, hscan']
      refine ⟨?_, hend⟩
      rw [List.filter_append, hlost, hlines, List.map_cons, ← List.filter_append,
        List.singleton_append]

/-- The lines of a text that are not empty are those it was made of. -/
theorem filter_lines_render {ls : List (List Char × Terminator)} {last : List Char}
    (hls : ∀ l ∈ ls, Unbroken l.1) (hlast : Unbroken last) :
    (lines (render ls last)).filter (fun line => !line.isEmpty) =
      (ls.map Prod.fst ++ [last]).filter fun line => !line.isEmpty := by
  obtain ⟨hlines, hend⟩ := scan_render hls hlast false
  rw [lines, terminated, List.filter_append, hlines, hend, List.filter_filter, List.filter_append]
  simp only [Bool.and_self]

/-- Nothing in a line ends it. -/
theorem unbroken_scan {line : List Char} (h : Unbroken line) (skipLF : Bool) (text : List Char) :
    (∀ l ∈ (scan line skipLF text).1, Unbroken l) ∧ Unbroken (scan line skipLF text).2 := by
  have hnil : Unbroken [] := fun _ hc => absurd hc List.not_mem_nil
  fun_induction scan line skipLF text with
  | case1 => exact ⟨fun _ hl => absurd hl List.not_mem_nil, h⟩
  | case2 line rest ih => exact ih h
  | case3 line skipLF rest hskip ih =>
      exact ⟨List.forall_mem_cons.mpr ⟨h, (ih hnil).1⟩, (ih hnil).2⟩
  | case4 line skipLF rest ih =>
      exact ⟨List.forall_mem_cons.mpr ⟨h, (ih hnil).1⟩, (ih hnil).2⟩
  | case5 line skipLF c rest hlf hcr ih =>
      refine ih fun d hd => ?_
      rcases List.mem_append.mp hd with hold | hnew
      · exact h d hold
      · rw [List.mem_singleton.mp hnew]
        exact ⟨hlf, hcr⟩

theorem unbroken_lines {text l : List Char} (h : l ∈ lines text) : Unbroken l := by
  have hscan := unbroken_scan (fun _ hc => absurd hc List.not_mem_nil) false text
  rcases List.mem_append.mp h with hterminated | hlast
  · exact hscan.1 l hterminated
  · rw [List.mem_singleton.mp (List.mem_filter.mp hlast).1]
    exact hscan.2

end JvmHookFramework.Foundation.Lines
