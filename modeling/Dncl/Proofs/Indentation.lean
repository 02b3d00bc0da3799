/-
Dncl/Proofs/Indentation.lean

Texts that are set in.

`setIn m cs` has `m` blanks more at the start of every line of `cs` but the
first.  The text of a block is made of lines that are cut apart and joined
again; for a tidy text that is nothing but

    Text.indent s  =  "    " ++ setIn 4 s.

Design.  Cutting a text into lines loses a carriage return before a break and
a break at the end.  A tidy text has neither, nor has what the printer writes.
-/
import Dncl.Text.Line
import Mathlib.Data.List.Basic

namespace Dncl

/-! ### Setting in -/

/-- The text with `m` blanks more at the start of every line but the first. -/
def setIn (m : Nat) (cs : List Char) : List Char :=
  cs.flatMap fun c => if c = '\n' then '\n' :: List.replicate m ' ' else [c]

section SetIn

variable (m n : Nat) (cs ds : List Char)

@[simp] theorem setIn_append : setIn m (cs ++ ds) = setIn m cs ++ setIn m ds :=
  List.flatMap_append

theorem setIn_break : setIn m ('\n' :: cs) = '\n' :: (List.replicate m ' ' ++ setIn m cs) := rfl

theorem setIn_cons {c : Char} (h : c ≠ '\n') : setIn m (c :: cs) = c :: setIn m cs := by
  rw [setIn, List.flatMap_cons, if_neg h]
  rfl

variable {cs} in
theorem setIn_eq_self (h : '\n' ∉ cs) : setIn m cs = cs := by
  induction cs with
  | nil => rfl
  | cons c cs ih =>
    obtain ⟨hc, hcs⟩ := not_or.1 (mt List.mem_cons.2 h)
    rw [setIn_cons m cs (Ne.symm hc), ih hcs]

theorem setIn_zero : setIn 0 cs = cs := by
  induction cs with
  | nil => rfl
  | cons c cs ih =>
    by_cases hc : c = '\n'
    · subst hc
      exact congrArg ('\n' :: ·) ih
    · rw [setIn_cons 0 cs hc, ih]

/-- Margins add up. -/
theorem setIn_setIn : setIn m (setIn n cs) = setIn (m + n) cs := by
  induction cs with
  | nil => rfl
  | cons c cs ih =>
    by_cases hc : c = '\n'
    · subst hc
      have hblanks : setIn m (List.replicate n ' ') = List.replicate n ' ' :=
        setIn_eq_self m (by simp)
      rw [setIn_break, setIn_break, setIn_break, setIn_append, hblanks, ih, ← List.append_assoc,
        List.replicate_append_replicate]
    · rw [setIn_cons n cs hc, setIn_cons m _ hc, setIn_cons (m + n) cs hc, ih]

end SetIn

/-! ### Tidy texts -/

/-- The text does not end with a break or a carriage return, and no carriage
return stands before a break. -/
def Tidy : List Char → Prop
  | [] => False
  | [c] => c ≠ '\n' ∧ c ≠ '\r'
  | c :: d :: cs => ¬(c = '\r' ∧ d = '\n') ∧ Tidy (d :: cs)

namespace Tidy

variable {c : Char} {cs ds : List Char}

theorem ne_nil (h : Tidy cs) : cs ≠ [] := by
  rintro rfl
  exact h

theorem cons (h : Tidy cs) (hc : c ≠ '\r') : Tidy (c :: cs) := by
  cases cs with
  | nil => exact h.elim
  | cons d cs => exact ⟨fun heq => hc heq.1, h⟩

theorem append (hc : Tidy cs) (hd : Tidy ds) : Tidy (cs ++ ds) := by
  induction cs with
  | nil => exact hd
  | cons c cs ih =>
    cases cs with
    | nil => exact hd.cons hc.2
    | cons d cs => exact ⟨hc.1, ih hc.2⟩

/-- A text of one line. -/
theorem concat (hcs : '\n' ∉ cs) (hc : c ≠ '\n' ∧ c ≠ '\r') : Tidy (cs ++ [c]) := by
  induction cs with
  | nil => exact hc
  | cons d cs ih =>
    have hcs := (not_or.1 (mt List.mem_cons.2 hcs)).2
    have hrest := ih hcs
    cases cs with
    | nil => exact ⟨fun heq => hc.1 heq.2, hrest⟩
    | cons e cs => exact ⟨fun heq => hcs (heq.2 ▸ List.mem_cons_self), hrest⟩

theorem of_not_mem (hne : cs ≠ []) (hbreak : '\n' ∉ cs) (hreturn : '\r' ∉ cs) : Tidy cs := by
  obtain ⟨ds, c, rfl⟩ := (List.eq_nil_or_concat' cs).resolve_left hne
  have hlast : c ∈ ds ++ [c] := by simp
  refine concat (fun hmem => hbreak (by simp [hmem])) ⟨?_, ?_⟩
  · exact fun heq => hbreak (heq ▸ hlast)
  · exact fun heq => hreturn (heq ▸ hlast)

theorem blanks (h : Tidy cs) (n : Nat) : Tidy (List.replicate n ' ' ++ cs) := by
  induction n with
  | zero => exact h
  | succ n ih => exact ih.cons (by decide)

theorem setIn (h : Tidy cs) (m : Nat) : Tidy (setIn m cs) := by
  induction cs with
  | nil => exact h
  | cons c cs ih =>
    cases cs with
    | nil =>
      rw [setIn_cons m [] h.1]
      exact h
    | cons d cs =>
      have hrest := ih h.2
      by_cases hc : c = '\n'
      · subst hc
        exact (hrest.blanks m).cons (by decide)
      · rw [setIn_cons m _ hc]
        by_cases hd : d = '\n'
        · -- the break stays right behind the character
          exact hrest.cons fun heq => h.1 ⟨heq, hd⟩
        · rw [setIn_cons m cs hd] at hrest ⊢
          exact ⟨h.1, hrest⟩

end Tidy

/-! ### Lines -/

namespace Text

variable {cs : List Char} {s : String}

theorem exists_split (cs : List Char) : ∃ piece pieces, split cs = piece :: pieces := by
  cases cs with
  | nil => exact ⟨[], [], rfl⟩
  | cons c cs =>
    rw [split]
    split
    · exact ⟨[], split cs, rfl⟩
    · split
      · exact ⟨[c], [], rfl⟩
      · exact ⟨_, _, rfl⟩

theorem split_cons {c : Char} (hc : c ≠ '\n') {piece : List Char} {pieces : List (List Char)}
    (h : split cs = piece :: pieces) : split (c :: cs) = (c :: piece) :: pieces := by
  rw [split, if_neg hc, h]

theorem dropReturn_cons {c : Char} (h : dropReturn cs = cs) (hc : cs = [] → c ≠ '\r') :
    dropReturn (c :: cs) = c :: cs := by
  refine if_neg ?_
  cases cs with
  | nil => simpa using hc rfl
  | cons d cs =>
    intro hlast
    rw [List.getLast?_cons_cons] at hlast
    rw [dropReturn, if_pos hlast] at h
    have hlength := congrArg List.length h
    simp at hlength

/-- The lines of a tidy text are its pieces. -/
theorem lines_of_tidy (h : Tidy cs) : lines cs = split cs := by
  rw [lines]
  induction cs with
  | nil => exact h.elim
  | cons c cs ih =>
    cases cs with
    | nil =>
      rw [split_cons h.1 rfl]
      rfl
    | cons d cs =>
      obtain ⟨piece, pieces, hsplit⟩ := exists_split (d :: cs)
      have ih := ih h.2
      rw [hsplit] at ih
      by_cases hc : c = '\n'
      · rw [split, if_pos hc, hsplit]
        exact congrArg ([] :: ·) ih
      · rw [split_cons hc hsplit]
        cases pieces with
        | nil => rfl
        | cons next rest =>
          -- a piece that ends here does not end with a carriage return
          obtain ⟨hpiece, hrest⟩ := List.cons.inj ih
          have hbreak : piece = [] → c ≠ '\r' := by
            rintro rfl rfl
            refine h.1 ⟨rfl, ?_⟩
            by_contra hd
            obtain ⟨p, ps, hcs⟩ := exists_split cs
            rw [split_cons hd hcs] at hsplit
            cases hsplit
          rw [linesOfPieces, dropReturn_cons hpiece hbreak, hrest]

theorem toList_joinWith_cons (sep s : String) (ss : List String) :
    (joinWith sep (s :: ss)).toList = s.toList ++ ss.flatMap fun t => sep.toList ++ t.toList := by
  induction ss generalizing s with
  | nil => simp [joinWith]
  | cons t ss ih => simp [joinWith, ih]

theorem toList_joinWith_split (cs : List Char) :
    (joinWith "\n" ((split cs).map fun line => "    " ++ String.ofList line)).toList =
      List.replicate 4 ' ' ++ setIn 4 cs := by
  induction cs with
  | nil => rfl
  | cons c cs ih =>
    obtain ⟨piece, pieces, hsplit⟩ := exists_split cs
    rw [hsplit, List.map_cons, toList_joinWith_cons] at ih
    by_cases hc : c = '\n'
    · subst hc
      rw [split, if_pos rfl, hsplit, List.map_cons, toList_joinWith_cons, setIn_break, ← ih]
      simp
    · rw [split_cons hc hsplit, List.map_cons, toList_joinWith_cons, setIn_cons 4 cs hc]
      simpa using ih

/-- A tidy text is set in by four blanks. -/
theorem toList_indent (h : Tidy s.toList) :
    (indent s).toList = List.replicate 4 ' ' ++ setIn 4 s.toList := by
  rw [indent, lines_of_tidy h, toList_joinWith_split]

/-- Setting in the lines of a list is setting in all of them. -/
theorem toList_joinWith_indent {ss : List String} (h : ∀ t ∈ s :: ss, Tidy t.toList) :
    (joinWith "\n" ((s :: ss).map indent)).toList =
      List.replicate 4 ' ' ++ setIn 4 (joinWith "\n" (s :: ss)).toList := by
  induction ss generalizing s with
  | nil => exact toList_indent (h s List.mem_cons_self)
  | cons t ss ih =>
    have hrest := ih (s := t) fun u hu => h u (List.mem_cons_of_mem s hu)
    have hbreak : "\n".toList = ['\n'] := rfl
    show (indent s ++ "\n" ++ joinWith "\n" ((t :: ss).map indent)).toList =
      _ ++ setIn 4 (s ++ "\n" ++ joinWith "\n" (t :: ss)).toList
    rw [String.toList_append, String.toList_append, hrest, toList_indent (h s List.mem_cons_self),
      String.toList_append, String.toList_append, hbreak]
    simp [setIn_break]

end Text

end Dncl
