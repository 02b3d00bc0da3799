/-
Dncl/Proofs/Placeless.lean

Parsing does not depend on places.

Two texts that are read alike, with the same tokens up to the same fault, are
parsed alike: to the same program, or to the same failure, but for places
(`parseProgram_alike`).

Design.  The two texts bring items that match but for places, so their windows move in
step; what is read from such windows looks the same (`parseFeed_brings`).
-/
import Dncl.Proofs.Batch
import Dncl.Proofs.Tandem

namespace Dncl

/-- Faults with the same cause. -/
def SameCause (e e' : LexError) : Prop :=
  e'.cause = e.cause

/-- Items that are alike match, if places are not compared. -/
theorem Item.Alike.matches {x x' : Item} (h : x.Alike SameCause x') : x.Matches False x' := by
  cases h with
  | token htoken => exact .token ⟨False.elim, htoken⟩
  | fault hcause => exact .fault ⟨False.elim, hcause⟩

/-- **Parsing does not depend on places.**  Texts that are read alike are parsed
alike. -/
theorem parseProgram_alike {text text' : String}
    (h : List.Forall₂ (Item.Alike SameCause) (Scanner.ofText text).yields
      (Scanner.ofText text').yields) :
    erasedOutcome (parseProgram text') = erasedOutcome (parseProgram text) := by
  have hitems := h.imp fun _ _ => Item.Alike.matches
  exact (parseFeed_brings (brings_of_text text) (brings_of_text text') hitems).1.2

end Dncl
