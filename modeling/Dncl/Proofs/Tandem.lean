/-
Dncl/Proofs/Tandem.lean

Two scanners in tandem.

Two texts are read alike if the same tokens are found in both, wherever they
stand, and if reading one of them ends with a fault, so does reading the other,
with a fault that corresponds to it (`ReadAlike`).

Design.  A relation between scanners is kept by every step (`Progress.Alike`),
so it is kept up to the end mark or the first fault (`yields_alike`).  Which
faults correspond is up to the two texts; their places are told by how much of
the text a scanner has passed (`Scanner.Passed`).
-/
import Dncl.Proofs.Facing
import Dncl.Proofs.Sequel

namespace Dncl

/-! ### Results that are alike -/

/-- Two items are the same token, or two faults that correspond. -/
inductive Item.Alike (Q : LexError → LexError → Prop) : Item → Item → Prop
  | token {x y : Lexeme} : y.token = x.token → Alike Q (.ok x) (.ok y)
  | fault {e e' : LexError} : Q e e' → Alike Q (.error e) (.error e')

/-- Two texts come to the same tokens, or to faults that correspond. -/
inductive ReadAlike (Q : LexError → LexError → Prop) :
    Except LexError (List Lexeme) → Except LexError (List Lexeme) → Prop
  | tokens {xs ys : List Lexeme} : ys.map Lexeme.token = xs.map Lexeme.token →
      ReadAlike Q (.ok xs) (.ok ys)
  | fault {e e' : LexError} : Q e e' → ReadAlike Q (.error e) (.error e')

/-- Two steps do the same, and lead to related scanners. -/
inductive Progress.Alike (R : Scanner → Scanner → Prop) (Q : LexError → LexError → Prop) :
    Progress → Progress → Prop
  | again {s t : Scanner} : R s t → Alike R Q (.again s) (.again t)
  | token {x y : Lexeme} {s t : Scanner} : y.token = x.token → (x.token ≠ .eof → R s t) →
      Alike R Q (.emit (.ok x) s) (.emit (.ok y) t)
  | fault {e e' : LexError} {s t : Scanner} : Q e e' →
      Alike R Q (.emit (.error e) s) (.emit (.error e') t)

/-- More may be known of the scanners that a step leads to. -/
theorem Progress.Alike.imp {R R' : Scanner → Scanner → Prop} {Q : LexError → LexError → Prop}
    {p q : Progress} (h : Alike R Q p q)
    (hagain : ∀ s t, p = .again s → q = .again t → R s t → R' s t)
    (htoken : ∀ x y s t, p = .emit (.ok x) s → q = .emit (.ok y) t → y.token = x.token →
      x.token ≠ .eof → R s t → R' s t) : Alike R' Q p q := by
  cases h with
  | again hnext => exact .again (hagain _ _ rfl rfl hnext)
  | token hsame hnext => exact .token hsame fun hx => htoken _ _ _ _ rfl rfl hsame hx (hnext hx)
  | fault hfault => exact .fault hfault

/-! ### Running in tandem -/

namespace Scanner

variable {R : Scanner → Scanner → Prop} {Q : LexError → LexError → Prop} {s t : Scanner}

/-- Scanners that take the same steps find the same next. -/
theorem next_alike (hsteps : ∀ s t, R s t → Progress.Alike R Q s.step t.step) (h : R s t) :
    Item.Alike Q s.next.1 t.next.1 ∧
      ∀ x, s.next.1 = .ok x → x.token ≠ .eof → R s.next.2 t.next.2 := by
  fun_induction next s generalizing t with
  | case1 s result u hstep =>
    have halike := hsteps s t h
    rw [hstep] at halike
    cases hstep' : t.step with
    | again v =>
      rw [hstep'] at halike
      cases halike
    | emit result' v =>
      rw [hstep'] at halike
      rw [next_of_emit hstep']
      cases halike with
      | token htoken hnext =>
        refine ⟨.token htoken, fun x hx hne => hnext ?_⟩
        cases hx
        exact hne
      | fault hfault => exact ⟨.fault hfault, by rintro x ⟨⟩⟩
  | case2 s u hstep ih =>
    have halike := hsteps s t h
    rw [hstep] at halike
    cases hstep' : t.step with
    | again v =>
      rw [hstep'] at halike
      cases halike with
      | again hnext =>
        rw [next_of_again hstep']
        exact ih hnext
    | emit result' v =>
      rw [hstep'] at halike
      cases halike

/-- Scanners that take the same steps yield the same. -/
theorem yields_alike (hsteps : ∀ s t, R s t → Progress.Alike R Q s.step t.step) (h : R s t) :
    List.Forall₂ (Item.Alike Q) s.yields t.yields := by
  fun_induction yields s generalizing t with
  | case1 s e u hnext =>
    obtain ⟨hitem, -⟩ := next_alike hsteps h
    rw [hnext] at hitem
    cases hnext' : t.next with
    | mk result v =>
      rw [hnext'] at hitem
      cases hitem with
      | fault hfault =>
        rw [yields_of_fault hnext']
        exact .cons (.fault hfault) .nil
  | case2 s x u hnext hx =>
    obtain ⟨hitem, -⟩ := next_alike hsteps h
    rw [hnext] at hitem
    cases hnext' : t.next with
    | mk result v =>
      rw [hnext'] at hitem
      cases hitem with
      | token htoken =>
        rw [yields_of_eof hnext' (htoken.trans hx)]
        exact .cons (.token htoken) .nil
  | case3 s x u hnext hx ih =>
    obtain ⟨hitem, hrest⟩ := next_alike hsteps h
    rw [hnext] at hitem hrest
    cases hnext' : t.next with
    | mk result v =>
      rw [hnext'] at hitem hrest
      cases hitem with
      | token htoken =>
        rw [yields_of_next hnext' (fun heof => hx (htoken.symm.trans heof))]
        exact .cons (.token htoken) (ih (hrest x rfl hx))

theorem yields_of_again (h : s.step = .again t) : s.yields = t.yields := by
  have hsame := next_of_again h
  cases hnext : t.next with
  | mk result u =>
    rw [hnext] at hsame
    cases result with
    | error e => rw [yields_of_fault hsame, yields_of_fault hnext]
    | ok x =>
      by_cases hx : x.token = .eof
      · rw [yields_of_eof hsame hx, yields_of_eof hnext hx]
      · rw [yields_of_next hsame hx, yields_of_next hnext hx]

/-- The tokens of a text are collected from what it yields. -/
theorem tokens_eq_mapM (s : Scanner) : s.tokens = s.yields.mapM id := by
  fun_induction yields s with
  | case1 s e u hnext =>
    rw [tokens_eq, hnext]
    rfl
  | case2 s x u hnext hx =>
    rw [tokens_of_eof hnext hx]
    rfl
  | case3 s x u hnext hx ih =>
    rw [tokens_eq, hnext, List.mapM_cons, ← ih]
    dsimp only
    rw [if_neg hx]
    cases u.tokens <;> rfl

theorem tokens_alike (h : List.Forall₂ (Item.Alike Q) s.yields t.yields) :
    ReadAlike Q s.tokens t.tokens := by
  rw [tokens_eq_mapM, tokens_eq_mapM]
  generalize s.yields = xs at h
  generalize t.yields = ys at h
  induction h with
  | nil => exact .tokens rfl
  | @cons a b xs ys hitem _ ih =>
    rw [List.mapM_cons, List.mapM_cons]
    cases hitem with
    | fault hfault => exact .fault hfault
    | @token x y htoken =>
      generalize xs.mapM id = rest at ih
      generalize ys.mapM id = rest' at ih
      cases ih with
      | tokens hrest =>
        refine .tokens ?_
        rw [List.map_cons, List.map_cons, htoken, hrest]
      | fault hfault => exact .fault hfault

/-! ### Scanners on a level -/

/-- The two scanners differ by their texts, offsets and open blocks only, and by
the places of the tokens that are pending. -/
structure Level (s t : Scanner) : Prop where
  depth : t.depth = s.depth
  lineStart : t.lineStart = s.lineStart
  lineUsed : t.lineUsed = s.lineUsed
  ended : t.ended = s.ended
  pending : t.pending.map Lexeme.token = s.pending.map Lexeme.token

/-- Pending tokens come first; then, at the end of the text, the end mark. -/
theorem Level.step_alike (h : Level s t)
    (hpop : ∀ x xs y ys, s.pending = x :: xs → t.pending = y :: ys →
      R { s with pending := xs } { t with pending := ys })
    (hended : s.ended = true → R s t)
    (hgoes : s.pending = [] → t.pending = [] → s.ended = false → t.ended = false →
      Progress.Alike R Q s.step t.step) : Progress.Alike R Q s.step t.step := by
  have hpending := h.pending
  cases hp : s.pending with
  | cons x xs =>
    rw [hp, List.map_cons, List.map_eq_cons_iff] at hpending
    obtain ⟨y, ys, hp', htoken, -⟩ := hpending
    rw [step_of_pending hp, step_of_pending hp']
    exact .token htoken fun _ => hpop x xs y ys hp hp'
  | nil =>
    rw [hp, List.map_nil, List.map_eq_nil_iff] at hpending
    cases he : s.ended with
    | true =>
      rw [step, step, hp, hpending, he, h.ended.trans he]
      exact .token rfl fun _ => hended he
    | false => exact hgoes hp hpending he (h.ended.trans he)

/-- Both end their last line, and close as many blocks. -/
theorem Level.finish (h : Level s t) (hlength : t.indents.length = s.indents.length) :
    Level s.finish t.finish := by
  refine ⟨h.depth, h.lineStart, rfl, rfl, ?_⟩
  simp only [Scanner.finish, h.lineUsed, hlength, List.map_append, List.map_replicate]
  cases s.lineUsed <;> rfl

/-! ### How far a scanner has come -/

/-- The scanner has passed the characters `before` of the text. -/
structure Passed (text before : List Char) (s : Scanner) : Prop where
  text_eq : text = before ++ s.rest
  pos_eq : s.pos = Text.byteSize before

section Passed

variable {text before : List Char}

theorem passed_ofText (text : String) : (ofText text).Passed text.toList [] :=
  ⟨rfl, rfl⟩

theorem Passed.after {α : Type} {r : Reading α} (h : s.Passed text before)
    (hr : s.rest = r.taken ++ r.rest) : (s.after r).Passed text (before ++ r.taken) := by
  refine ⟨?_, ?_⟩
  · rw [h.text_eq, hr, List.append_assoc]
    rfl
  · rw [Cut.byteSize_append, ← h.pos_eq]
    rfl

theorem Passed.skipWhile (h : s.Passed text before) (p : Char → Bool) :
    (s.skipWhile p).Passed text (before ++ s.rest.takeWhile p) :=
  h.after (r := ⟨(), s.rest.takeWhile p, s.rest.dropWhile p⟩) List.takeWhile_append_dropWhile.symm

theorem Passed.pastMargin (h : s.Passed text before) :
    s.pastMargin.Passed text (before ++ s.rest.takeWhile isMargin) :=
  ⟨(h.skipWhile isMargin).text_eq, (h.skipWhile isMargin).pos_eq⟩

/-- The scanner has come from the start of the text, or from the end of a token. -/
def CameFrom (text : List Char) (s : Scanner) : Prop :=
  ∃ p : Cut, p.text = text ∧ s.TiledFrom p

theorem cameFrom_ofText (text : String) : (ofText text).CameFrom text.toList :=
  ⟨⟨[], text.toList⟩, rfl, tiledFrom_ofText text⟩

theorem CameFrom.again (h : s.CameFrom text) (hstep : s.step = .again t) : t.CameFrom text := by
  obtain ⟨p, hp, htiles⟩ := h
  exact ⟨p, hp, step_tiles htiles hstep⟩

theorem CameFrom.emit {x : Lexeme} (h : s.CameFrom text) (hstep : s.step = .emit (.ok x) t)
    (hx : x.token ≠ .eof) : t.CameFrom text := by
  obtain ⟨p, hp, htiles⟩ := h
  rcases step_yields htiles hstep with ⟨a, cs, b, hskip, htakes, -, -, -, hnext⟩ | ⟨q, -, -, hover⟩
  · exact ⟨b, htakes.text_eq.trans (hskip.text_eq.trans hp), hnext⟩
  · exact absurd (congrArg Lexeme.token hover) hx

theorem CameFrom.exists_passed (h : s.CameFrom text) : ∃ before, s.Passed text before := by
  obtain ⟨p, hp, q, hstands, htiles, -⟩ := h
  refine ⟨q.before, ?_, hstands.pos⟩
  rw [← hp, ← htiles.text_eq, hstands.rest]
  rfl

end Passed

end Scanner

/-! ### Line breaks before a place -/

namespace Text

theorem byteSize_cons (c : Char) (cs : List Char) : byteSize (c :: cs) = c.utf8Size + byteSize cs :=
  rfl

theorem takeBytes?_byteSize (cs rest : List Char) :
    takeBytes? (byteSize cs) (cs ++ rest) = some cs := by
  induction cs with
  | nil => cases rest <;> rfl
  | cons c cs ih =>
    have hpos := c.utf8Size_pos
    rw [List.cons_append, takeBytes?, byteSize_cons, if_neg (by omega),
      if_pos (Nat.le_add_right _ _), Nat.add_sub_cancel_left, ih]
    rfl

theorem dropBytes?_byteSize (cs rest : List Char) :
    dropBytes? (byteSize cs) (cs ++ rest) = some rest := by
  induction cs with
  | nil => cases rest <;> rfl
  | cons c cs ih =>
    have hpos := c.utf8Size_pos
    rw [List.cons_append, dropBytes?, byteSize_cons, if_neg (by omega),
      if_pos (Nat.le_add_right _ _), Nat.add_sub_cancel_left, ih]

/-- A piece of a text lies between the offsets of its ends. -/
theorem slice?_byteSize (before cs rest : List Char) :
    slice? (before ++ (cs ++ rest)) (byteSize before) (byteSize before + byteSize cs) =
      some cs := by
  rw [slice?, if_pos (Nat.le_add_right _ _), dropBytes?_byteSize, Nat.add_sub_cancel_left]
  exact takeBytes?_byteSize cs rest

/-- How many line breaks there are in the first `p` bytes of a text. -/
def breaksBefore (text : List Char) (p : Nat) : Nat :=
  ((takeBytes? p text).getD []).count '\n'

end Text

theorem Scanner.Passed.breaksBefore {text before : List Char} {s : Scanner}
    (h : s.Passed text before) : Text.breaksBefore text s.pos = before.count '\n' := by
  rw [Text.breaksBefore, h.text_eq, h.pos_eq, Text.takeBytes?_byteSize]
  rfl

end Dncl
