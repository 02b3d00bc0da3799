/-
Dncl/Proofs/Spending.lean

What a parsing action may do with the tokens that it passes.

Design.  A window moves along a *trail*, the tokens with their places that a
scanner yields one after the other.  `Parse.Spends` says of an action at a
window what it may do: it succeeds with a result, and then a relation holds
between the result and the places of the words that were passed, or it fails at
a valid place.  There is one rule for each basic action, and `Spends.bind` puts
two together.
-/
import Dncl.Grammar
import Dncl.Proofs.Located
import Dncl.Proofs.Words

namespace Dncl

variable {t : Token}

/-! ### Trails -/

/-- The tokens with their places, and faults, that are yielded one after the
other. -/
abbrev Trail : Type :=
  Nat → Except LexError Lexeme

/-- The places of those tokens that are words. -/
def places (xs : List Lexeme) : List Span :=
  (xs.filter (·.token.isWord)).map Lexeme.span

theorem places_append (xs ys : List Lexeme) : places (xs ++ ys) = places xs ++ places ys := by
  rw [places, List.filter_append, List.map_append]
  rfl

theorem places_sublist (xs : List Lexeme) : (places xs).Sublist (xs.map Lexeme.span) :=
  List.filter_sublist.map _

namespace Trail

variable {V : Span → Prop} {tr tr' tr'' : Trail} {x : Lexeme} {xs ys : List Lexeme}

/-- The trail after its first item. -/
def tail (tr : Trail) : Trail :=
  fun k => tr (k + 1)

/-- The trail that begins with a token. -/
def cons (x : Lexeme) (tr : Trail) : Trail
  | 0 => .ok x
  | k + 1 => tr k

/-- The trail begins with the tokens `xs`, and goes on as `tr'`. -/
def Passes (tr' : Trail) : List Lexeme → Trail → Prop
  | [], tr => tr = tr'
  | x :: xs, tr => tr 0 = .ok x ∧ Passes tr' xs tr.tail

theorem Passes.append (h : Passes tr' xs tr) (h' : Passes tr'' ys tr') :
    Passes tr'' (xs ++ ys) tr := by
  induction xs generalizing tr with
  | nil =>
    cases h
    exact h'
  | cons x xs ih => exact ⟨h.1, ih h.2⟩

/-- All places of the trail are valid, and the tokens lie one behind the
other. -/
structure Good (V : Span → Prop) (tr : Trail) : Prop where
  law : SpanLaw V
  token : ∀ {k x}, tr k = .ok x → V x.span
  fault : ∀ {k f}, tr k = .error f → V f.span
  apart : ∀ {k x y}, tr k = .ok x → tr (k + 1) = .ok y → x.span.stop ≤ y.span.start

theorem Good.tail (h : tr.Good V) : tr.tail.Good V :=
  ⟨h.law, fun hk => h.token hk, fun hk => h.fault hk, fun hx hy => h.apart hx hy⟩

theorem Good.cons (h : tr.Good V) (hx : V x.span)
    (hlow : ∀ y, tr 0 = .ok y → x.span.stop ≤ y.span.start) : (Trail.cons x tr).Good V where
  law := h.law
  token {k y} hy := by
    cases k with
    | zero =>
      cases hy
      exact hx
    | succ k => exact h.token hy
  fault {k f} hf := by
    cases k with
    | zero => cases hf
    | succ k => exact h.fault hf
  apart {k y z} hy hz := by
    cases k with
    | zero =>
      cases hy
      exact hlow z hz
    | succ k => exact h.apart hy hz

theorem Good.after (h : tr.Good V) (hpass : Passes tr' xs tr) : tr'.Good V := by
  induction xs generalizing tr with
  | nil =>
    cases hpass
    exact h
  | cons x xs ih => exact ih h.tail hpass.2

/-- What is passed lies behind what was passed before. -/
theorem Good.stop_le (h : tr.Good V) (hx : tr 0 = .ok x)
    (hpass : Passes tr' xs tr.tail) : ∀ y ∈ xs, x.span.stop ≤ y.span.start := by
  induction xs generalizing tr x with
  | nil => nofun
  | cons z xs ih =>
    intro y hy
    have hz : x.span.stop ≤ z.span.start := h.apart hx hpass.1
    rcases List.mem_cons.1 hy with rfl | hy
    · exact hz
    · have hvalid : z.span.start ≤ z.span.stop := h.law.le (h.tail.token hpass.1)
      exact hz.trans (hvalid.trans (ih h.tail hpass.1 hpass.2 y hy))

theorem Good.ordered (h : tr.Good V) (hpass : Passes tr' xs tr) :
    Ordered V (xs.map Lexeme.span) := by
  induction xs generalizing tr with
  | nil => exact ⟨nofun, .nil⟩
  | cons x xs ih =>
    have hrest := ih h.tail hpass.2
    refine ⟨List.forall_mem_cons.2 ⟨h.token hpass.1, hrest.valid⟩,
      List.pairwise_cons.2 ⟨?_, hrest.apart⟩⟩
    exact List.forall_mem_map.2 (h.stop_le hpass.1 hpass.2)

end Trail

/-- What a scanner yields one after the other, up to the first fault. -/
def Scanner.trail (s : Scanner) : Trail
  | 0 => s.next.1
  | k + 1 =>
    match s.next with
    | (.ok _, t) => t.trail k
    | (.error fault, _) => .error fault

theorem Scanner.tail_trail {s t : Scanner} {x : Lexeme} (h : s.next = (.ok x, t)) :
    s.trail.tail = t.trail := by
  funext k
  rw [Trail.tail, trail, h]

/-- The window stands at the start of a trail. -/
def Window.Runs (w : Window) (tr : Trail) : Prop :=
  ∃ s, w.feed = .text s ∧ tr = .cons w.current (.cons w.next s.trail)

/-! ### What an action may do -/

namespace Parse

variable {α β : Type}

/-- On a trail, an action has come to a result of which `Φ` holds, with the
places of the words that it passed, or to a failure at a valid place. -/
def EndsWell (V : Span → Prop) (tr : Trail) (Φ : α → List Span → Prop) :
    EStateM.Result SyntaxError Window α → Prop
  | .ok a w => ∃ xs tr', w.Runs tr' ∧ Trail.Passes tr' xs tr ∧ (∀ l ∈ xs, l.token ≠ .eof) ∧
      Φ a (places xs)
  | .error e _ => V e.span

/-- The action at the window ends well. -/
def Spends (V : Span → Prop) (w : Window) (x : Parse α) (Φ : α → List Span → Prop) : Prop :=
  ∀ tr, w.Runs tr → tr.Good V → EndsWell V tr Φ (x w)

variable {V : Span → Prop} {w : Window} {x : Parse α} {f : α → Parse β}
  {Φ : α → List Span → Prop} {Ψ : β → List Span → Prop}

theorem spends_pure {a : α} (h : Φ a []) : Spends V w (pure a) Φ :=
  fun tr hw _ => ⟨[], tr, hw, rfl, nofun, h⟩

theorem Spends.bind (hx : Spends V w x Φ)
    (hf : ∀ a ys w', Ordered V ys → Φ a ys →
      Spends V w' (f a) fun b zs => Ψ b (ys ++ zs)) : Spends V w (x >>= f) Ψ := by
  intro tr hw htr
  have hfirst := hx tr hw htr
  show EndsWell V tr Ψ (EStateM.bind x f w)
  rw [EStateM.bind]
  cases hdone : x w with
  | error e w' =>
    rw [hdone] at hfirst
    exact hfirst
  | ok a w₁ =>
    rw [hdone] at hfirst
    obtain ⟨xs, tr₁, hw₁, hpass, heof, ha⟩ := hfirst
    have hordered := (htr.ordered hpass).sublist (places_sublist xs)
    have hsecond := hf a (places xs) w₁ hordered ha tr₁ hw₁ (htr.after hpass)
    simp only
    cases hdone' : f a w₁ with
    | error e w' =>
      rw [hdone'] at hsecond
      exact hsecond
    | ok b w₂ =>
      rw [hdone'] at hsecond
      obtain ⟨ys, tr₂, hw₂, hpass', heof', hb⟩ := hsecond
      refine ⟨xs ++ ys, tr₂, hw₂, hpass.append hpass', ?_, ?_⟩
      · exact fun l hl => (List.mem_append.1 hl).elim (heof l) (heof' l)
      · rw [places_append]
        exact hb

theorem Spends.mono {Φ' : α → List Span → Prop} (h : Spends V w x Φ)
    (himp : ∀ a ys, Φ a ys → Φ' a ys) : Spends V w x Φ' := by
  intro tr hw htr
  have hx := h tr hw htr
  cases hdone : x w with
  | error e w' =>
    rw [hdone] at hx
    exact hx
  | ok a w' =>
    rw [hdone] at hx
    obtain ⟨xs, tr', hw', hpass, heof, ha⟩ := hx
    exact ⟨xs, tr', hw', hpass, heof, himp a _ ha⟩

/-- The result goes into a tree. -/
theorem Spends.map {g : α → β} (hx : Spends V w x Φ) (h : ∀ a ys, Φ a ys → Ψ (g a) ys) :
    Spends V w (x >>= fun a => pure (g a)) Ψ := by
  refine hx.bind fun a ys w' _ ha => spends_pure ?_
  rw [List.append_nil]
  exact h a ys ha

/-! ### Basic actions -/

theorem spends_current {f : Token → Parse β} (h : Spends V w (f w.current.token) Ψ) :
    Spends V w (current >>= f) Ψ :=
  h

theorem spends_peek {f : Token → Parse β} (h : Spends V w (f w.next.token) Ψ) :
    Spends V w (peek >>= f) Ψ :=
  h

theorem spends_currentSpan {f : Span → Parse β} (h : Spends V w (f w.current.span) Ψ) :
    Spends V w (currentSpan >>= f) Ψ :=
  h

/-- The place of the current token is valid. -/
theorem valid_current {tr : Trail} (hw : w.Runs tr) (htr : tr.Good V) : V w.current.span := by
  obtain ⟨s, -, rfl⟩ := hw
  exact htr.token (k := 0) rfl

theorem spends_failHere (cause : SyntaxCause) :
    Spends V w (currentSpan >>= fun span => fail cause span) Φ :=
  fun _ hw htr => valid_current hw htr

theorem spends_unexpected (expected : List String) : Spends V w (unexpected expected) Φ := by
  intro tr hw htr
  have hvalid := valid_current hw htr
  -- the cause depends on the token, the place does not
  obtain ⟨⟨token, span⟩, next, closed, feed, ending⟩ := w
  cases token <;> exact hvalid

/-- The window moves on along its trail, unless a fault is found. -/
theorem advance_runs {tr : Trail} (hw : w.Runs tr) (htr : tr.Good V) :
    (∃ w', advance w = .ok w.current w' ∧ w'.Runs tr.tail) ∨
      ∃ e w', advance w = .error e w' ∧ V e.span := by
  obtain ⟨s, hfeed, rfl⟩ := hw
  rw [advance, hfeed, Feed.pull]
  cases hnext : s.next with
  | mk result t =>
    cases result with
    | error fault =>
      refine .inr ⟨_, _, rfl, htr.fault (k := 2) (f := fault) ?_⟩
      exact congrArg Prod.fst hnext
    | ok lexeme =>
      refine .inl ⟨_, rfl, t, rfl, ?_⟩
      funext k
      rcases k with _ | _ | k
      · rfl
      · exact congrArg Prod.fst hnext
      · exact congrFun (s.tail_trail hnext) k

/-- Passes a token. -/
theorem spends_advance {f : Lexeme → Parse β} (heof : w.current.token ≠ .eof)
    (h : ∀ w', Spends V w' (f w.current) fun b zs => Ψ b (places [w.current] ++ zs)) :
    Spends V w (advance >>= f) Ψ := by
  have hstep : Spends V w advance fun l ys => l = w.current ∧ ys = places [w.current] := by
    intro tr hw htr
    rcases advance_runs hw htr with ⟨w', hdone, hw'⟩ | ⟨e, w', hdone, he⟩
    · obtain ⟨s, hfeed, rfl⟩ := hw
      rw [hdone]
      exact ⟨[w.current], _, hw', ⟨rfl, rfl⟩, List.forall_mem_singleton.2 heof, rfl, rfl⟩
    · rw [hdone]
      exact he
  refine hstep.bind fun l ys w' _ hl => ?_
  obtain ⟨rfl, rfl⟩ := hl
  exact h w'

/-- Passes a word. -/
theorem spends_word {f : Lexeme → Parse β} (hword : w.current.token.isWord = true)
    (h : ∀ w', Spends V w' (f w.current) fun b zs => Ψ b (w.current.span :: zs)) :
    Spends V w (advance >>= f) Ψ := by
  refine spends_advance (fun heof => by rw [heof] at hword; cases hword) fun w' => ?_
  have hplaces : places [w.current] = [w.current.span] := by
    simp [places, hword]
  rw [hplaces]
  exact h w'

/-- Passes a token that is no word. -/
theorem spends_mute {f : Lexeme → Parse β} (hw : w.current.token = t) (hword : t.isWord = false)
    (ht : t ≠ .eof) (h : ∀ w', Spends V w' (f w.current) Ψ) : Spends V w (advance >>= f) Ψ := by
  refine spends_advance (hw ▸ ht) fun w' => ?_
  have hplaces : places [w.current] = [] := by
    simp [places, hw, hword]
  rw [hplaces]
  exact h w'

theorem discard_eq (x : Parse α) : (discard x : Parse PUnit) = x >>= fun _ => pure ⟨⟩ := by
  funext w
  show EStateM.map (fun _ => PUnit.unit) x w = EStateM.bind x _ w
  rw [EStateM.bind, EStateM.map]
  cases x w <;> rfl

theorem spends_discard {f : PUnit → Parse β} (h : Spends V w (x >>= fun _ => f ⟨⟩) Ψ) :
    Spends V w (discard x >>= f) Ψ := by
  rw [discard_eq, bind_assoc]
  exact h

/-- Passes a word that is known. -/
theorem spends_expect {f : Span → Parse β} (ht : t.isWord = true)
    (h : ∀ s, s = w.current.span → ∀ w', Spends V w' (f s) fun b zs => Ψ b (s :: zs)) :
    Spends V w (expect t >>= f) Ψ := by
  have hexpect : Spends V w (expect t) fun s ys => s = w.current.span ∧ ys = [s] := by
    refine spends_current ?_
    split
    · rename_i hnow
      exact spends_word (hnow ▸ ht) fun w' => spends_pure ⟨rfl, rfl⟩
    · exact spends_unexpected _
  refine hexpect.bind fun s ys w' _ hys => ?_
  obtain ⟨hs, rfl⟩ := hys
  exact h s hs w'

/-- Passes the end of a block. -/
theorem spends_dedent {f : Span → Parse β} (h : ∀ s w', Spends V w' (f s) Ψ) :
    Spends V w (expect .dedent >>= f) Ψ := by
  have hexpect : Spends V w (expect .dedent) fun _ ys => ys = [] := by
    refine spends_current ?_
    split
    · rename_i hnow
      exact spends_mute hnow rfl nofun fun w' => spends_pure rfl
    · exact spends_unexpected _
  refine hexpect.bind fun s ys w' _ hys => ?_
  subst hys
  exact h s w'

/-- Passes a name. -/
theorem spends_expectIdent {f : Ident → Parse β}
    (h : ∀ id w', Spends V w' (f id) fun b zs => Ψ b (id.span :: zs)) :
    Spends V w (expectIdent >>= f) Ψ := by
  have hexpect : Spends V w expectIdent fun id ys => ys = [id.span] := by
    refine spends_current ?_
    split
    · rename_i name hnow
      exact spends_word (hnow ▸ rfl) fun w' => spends_pure rfl
    · exact spends_failHere _
    · exact spends_failHere _
  refine hexpect.bind fun id ys w' _ hys => ?_
  subst hys
  exact h id w'

/-- The action passes no word. -/
def Mute (x : Parse α) : Prop :=
  ∀ V w, Spends V w x fun _ ys => ys = []

theorem Mute.before (hx : Mute x) (h : ∀ a w', Spends V w' (f a) Ψ) : Spends V w (x >>= f) Ψ := by
  refine (hx V w).bind fun a ys w' _ hys => ?_
  subst hys
  exact h a w'

theorem mute_setClosed (closed : Bool) : Mute (setClosed closed) :=
  fun _ _ tr hw _ => ⟨[], tr, hw, rfl, nofun, rfl⟩

theorem spends_pass (hw : w.current.token = t) (hword : t.isWord = false) (ht : t ≠ .eof) :
    Spends V w (discard advance : Parse PUnit) fun _ ys => ys = [] := by
  rw [discard_eq]
  exact spends_mute hw hword ht fun w' => spends_pure rfl

theorem mute_skipNewlineIf (continues : Token → Bool) : Mute (skipNewlineIf continues) := by
  intro V w
  refine spends_current (spends_peek ?_)
  split
  · rename_i hnow
    simp only [Bool.and_eq_true, decide_eq_true_eq] at hnow
    exact spends_pass hnow.1 rfl nofun
  · exact spends_pure rfl

theorem mute_skipToken (ht : t.isWord = false) (hne : t ≠ .eof) : Mute (skipToken t) := by
  intro V w
  refine spends_current ?_
  split
  · rename_i hnow
    exact spends_pass hnow ht hne
  · exact spends_pure rfl

theorem mute_expectStatementEnd : Mute expectStatementEnd := by
  intro V w
  refine spends_current ?_
  split
  · rename_i hnow
    exact spends_pass hnow rfl nofun
  · rename_i hnow
    exact spends_pass hnow rfl nofun
  · exact spends_pure rfl
  · exact spends_pure rfl
  · show Spends V w (if w.closedBlock then pure () else unexpected ["改行"]) _
    split
    · exact spends_pure rfl
    · exact spends_unexpected _

end Parse

end Dncl
