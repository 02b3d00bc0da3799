/-
Dncl/Proofs/RoundTrip.lean

Printing undoes parsing.

A program that was read from a text is read again from its own text, up to
places:

    parseProgram text = .ok p  →  parseProgram p.text = .ok q,  q.erase = p.erase

if every block of it that lies inside brackets has exactly one statement.

Design.  The text is read as tokens in order (`Scan`), from which the program
is derived (`Soundness`).  So it is derived from its own tokens too
(`Rendering`), which are those that its text is read as (`Printing`), and what
is derived from the tokens of a text is what is parsed (`Completeness`).
-/
import Dncl.Proofs.Completeness
import Dncl.Proofs.Deciding
import Dncl.Proofs.Printing
import Dncl.Proofs.Soundness

namespace Dncl

/-! ### The end mark -/

section EndMark

variable {ts : List Token}

theorem Layout.eof_not_mem {d : Nat} (h : Layout d ts) : .eof ∉ ts := by
  induction ts generalizing d with
  | nil => nofun
  | cons t ts ih =>
    intro hmem
    rcases List.mem_cons.1 hmem with rfl | hmem
    · exact h.head
    · exact ih h.tail hmem

theorem Reads.eof_mem {f : Form} {c c' : Bool} {ts' : List Token} {t : f.Tree}
    (h : Reads f c ts t c' ts') (hmem : .eof ∈ ts) : .eof ∈ ts' := by
  rw [← List.count_pos_iff, h.count_eof]
  exact List.count_pos_iff.2 hmem

end EndMark

/-! ### The round trip -/

/-- A program that was read from a text is read from its own text again, up to
places, so it has the same text then.  Blocks inside brackets have to be of one
statement: line breaks, by which the printer separates statements, are passed
there. -/
theorem printing_undoes_parsing (text : String) (p : Program) (h : parseProgram text = .ok p)
    (hp : p.Fits) :
    ∃ q, parseProgram p.text = .ok q ∧ q.erase = p.erase ∧ q.text = p.text := by
  obtain ⟨ts, s, hover, hstream, hlayout⟩ :=
    Scanner.inOrder (Scanner.isReading_ofText text)
  obtain ⟨-, c, hreads⟩ := reads_of_parseFeed hover hstream hlayout.eof_not_mem h
  -- the tokens of the program, as a derivation and as what its text yields
  obtain ⟨c', htokens⟩ := Program.reads_tokens hlayout hp hreads
  have htext := Program.stream_text hlayout hreads
  have heof : .eof ∉ p.tokens := fun hmem => List.not_mem_nil (htokens.eof_mem hmem)
  obtain ⟨q, hq, hstatements⟩ := parseFeed_of_reads htext heof htokens
  have herase : q.erase = p.erase := by
    rw [Program.erase, hstatements]
    rfl
  refine ⟨q, hq, herase, ?_⟩
  rw [← Program.text_erase q, herase, Program.text_erase]

/-- A conditional on one line: its block is a call, with a function in the
brackets. -/
def callInBlock : Program :=
  ⟨[.conditional ⟨.ident ⟨"x", ⟨7, 8⟩⟩,
      ⟨[.expr (.call (.ident ⟨"f", ⟨20, 21⟩⟩)
        [.function ⟨[⟨"y", ⟨29, 30⟩⟩],
          ⟨[.expr (.ident ⟨"y", ⟨37, 38⟩⟩)], ⟨35, 38⟩⟩, ⟨22, 54⟩⟩] ⟨20, 55⟩)], ⟨18, 55⟩⟩,
      .missing, ⟨0, 55⟩⟩], ⟨0, 55⟩⟩

theorem parseProgram_callInBlock :
    parseProgram "もし x ならば: f(関数(y) を: y と定義する)" = .ok callInBlock := by
  decide +kernel

/-- A block behind its colon is printed over several lines, and so is the
function in the brackets inside it. -/
theorem printing_undoes_parsing_nested :
    parseProgram "もし x ならば: f(関数(y) を: y と定義する)" = .ok callInBlock ∧
      callInBlock.Fits ∧
      callInBlock.text = "もし x ならば:\n    f(関数(y) を:\n        y\n    と定義する)" ∧
      ∃ q, parseProgram "もし x ならば:\n    f(関数(y) を:\n        y\n    と定義する)" = .ok q ∧
        q.erase = callInBlock.erase ∧ q.text = callInBlock.text := by
  have hfits : callInBlock.Fits := by
    refine ⟨⟨trivial, ⟨by simp, ⟨trivial, ?_, trivial⟩, trivial⟩, trivial⟩, trivial⟩
    exact ⟨fun _ => rfl, trivial, trivial⟩
  have htext : callInBlock.text =
      "もし x ならば:\n    f(関数(y) を:\n        y\n    と定義する)" := by
    decide +kernel
  refine ⟨parseProgram_callInBlock, hfits, htext, ?_⟩
  rw [← htext]
  exact printing_undoes_parsing _ callInBlock parseProgram_callInBlock hfits

end Dncl
