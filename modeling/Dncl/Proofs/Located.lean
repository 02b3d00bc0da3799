/-
Dncl/Proofs/Located.lean

Where the nodes of a tree lie.

A tree that gets its places from the places of its words, which lie one behind
the other, is *located*: every node has a span, those of its children lie
inside it, and the statements of a block lie one behind the other.

Design.  A node *fits* a list of places if it is located and its span reaches
from the start of the first place to the end of the last one.  There is one
such lemma for each kind of node (`place_fits`), and each of them is a chain of
the actions of `place`, at the end of which the node is put together from its
parts (`fits_of_parts`).
-/
import Dncl.Proofs.Parts
import Dncl.Proofs.Placing

namespace Dncl

/-! ### Nodes -/

/-- The span lies inside another. -/
def Span.Within (s t : Span) : Prop :=
  t.start ≤ s.start ∧ s.stop ≤ t.stop

namespace Node

/-- The node and all below it lie as they should: `V` says which spans are
valid. -/
inductive Located (V : Span → Prop) : Node → Prop
  | mk {n : Node} : V n.span → (∀ c ∈ n.children, c.span.Within n.span) →
      (n.statements.Pairwise fun a b => a.span.stop ≤ b.span.start) →
      (∀ c ∈ n.children, Located V c) → Located V n

theorem Located.of_isIn {V : Span → Prop} {n root : Node} (h : root.Located V)
    (hn : n.IsIn root) : n.Located V := by
  induction hn with
  | refl => exact h
  | tail _ hchild ih =>
    obtain ⟨-, -, -, hchildren⟩ := ih
    exact hchildren _ hchild

end Node

/-! ### Places of words -/

/-- The laws of valid spans that are used: one that reaches from a valid span to
a later one is valid. -/
structure SpanLaw (V : Span → Prop) : Prop where
  le : ∀ {s : Span}, V s → s.start ≤ s.stop
  join : ∀ {s t : Span}, V s → V t → s.start ≤ t.stop → V ⟨s.start, t.stop⟩

/-- Valid places that lie one behind the other. -/
structure Ordered (V : Span → Prop) (ys : List Span) : Prop where
  valid : ∀ y ∈ ys, V y
  apart : ys.Pairwise fun a b => a.stop ≤ b.start

/-- The span reaches from the first place to the last one. -/
def Spans (s : Span) (ys : List Span) : Prop :=
  ∃ first last, ys.head? = some first ∧ ys.getLast? = some last ∧
    s = ⟨first.start, last.stop⟩

section Spans

variable {V : Span → Prop} {s t : Span} {ys zs : List Span}

theorem Ordered.sublist (h : Ordered V ys) (hsub : zs.Sublist ys) : Ordered V zs :=
  ⟨fun y hy => h.valid y (hsub.subset hy), h.apart.sublist hsub⟩

theorem spans_single (s : Span) : Spans s [s] :=
  ⟨s, s, rfl, rfl, rfl⟩

/-- Two spans are joined to one. -/
theorem Spans.append (hs : Spans s ys) (ht : Spans t zs) : Spans ⟨s.start, t.stop⟩ (ys ++ zs) := by
  obtain ⟨first, _, hfirst, _, rfl⟩ := hs
  obtain ⟨_, last, _, hlast, rfl⟩ := ht
  refine ⟨first, last, ?_, ?_, rfl⟩
  · rw [List.head?_append, hfirst]
    rfl
  · rw [List.getLast?_append, hlast]
    rfl

theorem Spans.cons (w : Span) (h : Spans s ys) : Spans ⟨w.start, s.stop⟩ (w :: ys) :=
  (spans_single w).append h

theorem Spans.concat (w : Span) (h : Spans s ys) : Spans ⟨s.start, w.stop⟩ (ys ++ [w]) :=
  h.append (spans_single w)

theorem Spans.again {a : Span} (h : Spans s (a :: ys)) : Spans ⟨a.start, s.stop⟩ (a :: ys) := by
  obtain ⟨first, last, hfirst, hlast, rfl⟩ := h
  exact ⟨a, last, rfl, hlast, rfl⟩

theorem spans_ends (a : Span) (ys : List Span) (b : Span) :
    Spans ⟨a.start, b.stop⟩ (a :: (ys ++ [b])) :=
  ⟨a, b, rfl, by rw [← List.cons_append, List.getLast?_concat], rfl⟩

/-- All words lie inside the span. -/
theorem Spans.within (hV : SpanLaw V) (h : Spans s ys) (hy : Ordered V ys) {y : Span}
    (hmem : y ∈ ys) : y.Within s := by
  obtain ⟨first, last, hfirst, hlast, rfl⟩ := h
  refine ⟨?_, ?_⟩
  · obtain ⟨rest, rfl⟩ := List.head?_eq_some_iff.1 hfirst
    rcases List.mem_cons.1 hmem with rfl | hmem
    · exact Nat.le_refl _
    · have hfirst : first.start ≤ first.stop := hV.le (hy.valid first List.mem_cons_self)
      exact Nat.le_trans hfirst (List.rel_of_pairwise_cons hy.apart hmem)
  · obtain ⟨rest, rfl⟩ := List.getLast?_eq_some_iff.1 hlast
    rcases List.mem_append.1 hmem with hmem | hmem
    · have hbefore := (List.pairwise_append.1 hy.apart).2.2 y hmem last List.mem_cons_self
      exact Nat.le_trans hbefore
        (hV.le (hy.valid _ (List.mem_append_right _ List.mem_cons_self)))
    · obtain rfl : y = last := List.mem_singleton.1 hmem
      exact Nat.le_refl _

/-- The ends of the span are those of words. -/
theorem Spans.ends (h : Spans s ys) : ∃ first ∈ ys, ∃ last ∈ ys, s = ⟨first.start, last.stop⟩ := by
  obtain ⟨first, last, hfirst, hlast, rfl⟩ := h
  exact ⟨first, List.mem_of_head? hfirst, last, List.mem_of_getLast? hlast, rfl⟩

theorem Spans.valid (hV : SpanLaw V) (h : Spans s ys) (hy : Ordered V ys) : V s := by
  obtain ⟨first, hfirst, last, hlast, rfl⟩ := h.ends
  exact hV.join (hy.valid _ hfirst) (hy.valid _ hlast)
    (Nat.le_trans (h.within hV hy hlast).1 (hV.le (hy.valid _ hlast)))

/-- A span of some of the words lies inside that of all. -/
theorem Spans.within_of_subset (hV : SpanLaw V) (h : Spans s ys) (hy : Ordered V ys)
    (ht : Spans t zs) (hsub : zs ⊆ ys) : t.Within s := by
  obtain ⟨first, hfirst, last, hlast, rfl⟩ := ht.ends
  exact ⟨(h.within hV hy (hsub hfirst)).1, (h.within hV hy (hsub hlast)).2⟩

/-- What is written behind other words starts behind them. -/
theorem Ordered.stop_le (h : Ordered V (ys ++ zs)) (hs : Spans s ys) {us : List Span}
    (ht : Spans t us) (hsub : us ⊆ zs) : s.stop ≤ t.start := by
  obtain ⟨_, _, last, hlast, rfl⟩ := hs.ends
  obtain ⟨first, hfirst, _, _, rfl⟩ := ht.ends
  exact (List.pairwise_append.1 h.apart).2.2 last hlast first (hsub hfirst)

/-- The span that covers the first words and the last ones. -/
theorem Spans.cover (hV : SpanLaw V) (hs : Spans s ys) (ht : Spans t zs) {us : List Span}
    (h : Spans ⟨s.start, t.stop⟩ us) (hy : Ordered V us) (hys : ys ⊆ us) (hzs : zs ⊆ us) :
    Spans (s.cover t) us := by
  have hs' := h.within_of_subset hV hy hs hys
  have ht' := h.within_of_subset hV hy ht hzs
  have heq : s.cover t = ⟨s.start, t.stop⟩ := by
    rw [Span.cover, Nat.min_eq_left ht'.1, Nat.max_eq_right hs'.2]
  rw [heq]
  exact h

end Spans

/-! ### Nodes that fit places -/

/-- The node is located, and its span is that of the places `ys`. -/
structure Fits (V : Span → Prop) (n : Node) (ys : List Span) : Prop where
  spans : Spans n.span ys
  located : n.Located V

/-- The nodes fit some of the places `ys`. -/
def FitsAll (V : Span → Prop) (ns : List Node) (ys : List Span) : Prop :=
  ∀ n ∈ ns, ∃ zs, zs ⊆ ys ∧ Fits V n zs

section Fits

variable {V : Span → Prop} {n : Node} {ns ms : List Node} {ys zs : List Span}

theorem fitsAll_nil : FitsAll V [] ys :=
  nofun

theorem FitsAll.cons (h : FitsAll V ns ys) (hn : Fits V n zs) (hsub : zs ⊆ ys) :
    FitsAll V (n :: ns) ys := by
  intro m hm
  rcases List.mem_cons.1 hm with rfl | hm
  · exact ⟨zs, hsub, hn⟩
  · exact h m hm

theorem FitsAll.mono (h : FitsAll V ns zs) (hsub : zs ⊆ ys) : FitsAll V ns ys := by
  intro m hm
  obtain ⟨us, hus, hfits⟩ := h m hm
  exact ⟨us, List.Subset.trans hus hsub, hfits⟩

theorem FitsAll.append (h : FitsAll V ns ys) (h' : FitsAll V ms ys) : FitsAll V (ns ++ ms) ys :=
  fun n hn => (List.mem_append.1 hn).elim (h n) (h' n)

/-- A node fits its places if its span does, and its children fit some of
them. -/
theorem fits_of_parts (hV : SpanLaw V) (hy : Ordered V ys) (hspan : Spans n.span ys)
    (hparts : FitsAll V n.children ys)
    (hapart : n.statements.Pairwise fun a b => a.span.stop ≤ b.span.start) : Fits V n ys where
  spans := hspan
  located := by
    refine .mk (hspan.valid hV hy) (fun c hc => ?_) hapart fun c hc => ?_
    · obtain ⟨zs, hsub, hfits⟩ := hparts c hc
      exact hspan.within_of_subset hV hy hfits.spans hsub
    · obtain ⟨zs, -, hfits⟩ := hparts c hc
      exact hfits.located

/-- An argument that is not written has the place of its call. -/
theorem FitsAll.builtin (hV : SpanLaw V) (hy : Ordered V ys) {span : Span} (hspan : Spans span ys)
    {function : Builtin} {es : List Expr} (h : FitsAll V (es.map .expr) zs) (hsub : zs ⊆ ys) :
    FitsAll V ((function.arguments es span).map .expr) ys := by
  rcases function.arguments_cases es span with heq | ⟨-, -, heq⟩ <;> rw [heq]
  · exact h.mono hsub
  · have habsent : Fits V (.expr (.absent span)) ys := fits_of_parts hV hy hspan fitsAll_nil .nil
    exact fitsAll_nil.cons habsent (List.Subset.refl _)

/-- Statements that fit places one behind the other. -/
structure FitStatements (V : Span → Prop) (ss : List Stmt) (ys : List Span) : Prop where
  parts : FitsAll V (ss.map .stmt) ys
  apart : ss.Pairwise fun a b => a.span.stop ≤ b.span.start
  /-- A block that ends with them ends where its last word does. -/
  ends : ∀ s zs, Spans s zs → Spans ⟨s.start, Rules.blockEnd s.stop ss⟩ (zs ++ ys)

theorem fitStatements_nil : FitStatements V [] [] :=
  ⟨fitsAll_nil, .nil, fun _ _ h => by rwa [List.append_nil]⟩

theorem FitStatements.cons {s : Stmt} {ss : List Stmt} (h : FitStatements V ss zs)
    (hs : Fits V (.stmt s) ys) (hy : Ordered V (ys ++ zs)) :
    FitStatements V (s :: ss) (ys ++ zs) where
  parts := (h.parts.mono (List.subset_append_right _ _)).cons hs (List.subset_append_left _ _)
  apart := by
    refine List.pairwise_cons.2 ⟨fun t ht => ?_, h.apart⟩
    obtain ⟨us, hsub, hfits⟩ := h.parts (.stmt t) (List.mem_map_of_mem ht)
    exact hy.stop_le hs.spans hfits.spans hsub
  ends t us ht := by
    have hend := h.ends ⟨t.start, s.span.stop⟩ (us ++ ys) (ht.append hs.spans)
    rw [← List.append_assoc]
    rw [Rules.blockEnd] at hend ⊢
    rw [List.getLast?_cons]
    cases hlast : ss.getLast? with
    | none =>
      rw [hlast] at hend
      exact hend
    | some last =>
      rw [hlast] at hend
      exact hend

/-- What follows a consequence fits places. -/
structure FitBranch (V : Span → Prop) (b : ElseBranch) (ys : List Span) : Prop where
  parts : FitsAll V b.nodes ys
  /-- A conditional that ends with it ends where its last word does. -/
  ends : ∀ s zs, Spans s zs → Spans ⟨s.start, b.stop s.stop⟩ (zs ++ ys)

end Fits

/-! ### What is placed fits -/

namespace Placing

variable {α β : Type}

/-- From places that lie one behind the other, the action takes some of which
`Φ` holds with the result. -/
def Covers (V : Span → Prop) (x : Placing α) (Φ : α → List Span → Prop) : Prop :=
  ∀ ⦃xs a rest⦄, Ordered V xs → x xs = some (a, rest) → ∃ ys, xs = ys ++ rest ∧ Φ a ys

variable {V : Span → Prop} {x : Placing α} {f : α → Placing β} {Φ : α → List Span → Prop}
  {Ψ : β → List Span → Prop}

theorem covers_pure {a : α} (h : Φ a []) : Covers V (pure a) Φ := by
  rintro xs b rest - hx
  obtain ⟨rfl, rfl⟩ := Prod.mk.inj (Option.some.inj hx)
  exact ⟨[], rfl, h⟩

/-- What is placed later covers later words. -/
theorem Covers.bind (hx : Covers V x Φ)
    (hf : ∀ a ys, Φ a ys → Covers V (f a) fun b zs => Ordered V (ys ++ zs) → Ψ b (ys ++ zs)) :
    Covers V (x >>= f) Ψ := by
  intro xs b rest hxs hdone
  obtain ⟨⟨a, rest'⟩, hfirst, hsecond⟩ := Option.bind_eq_some_iff.1 hdone
  obtain ⟨ys, rfl, ha⟩ := hx hxs hfirst
  obtain ⟨zs, rfl, hb⟩ := hf a ys ha (hxs.sublist (List.sublist_append_right _ _)) hsecond
  refine ⟨ys ++ zs, (List.append_assoc _ _ _).symm, hb (hxs.sublist ?_)⟩
  exact (List.sublist_append_left _ _).append_left _

/-- The action takes one word first. -/
theorem covers_word {f : Span → Placing β}
    (hf : ∀ s, Covers V (f s) fun b zs => Ordered V (s :: zs) → Ψ b (s :: zs)) :
    Covers V (word >>= f) Ψ := by
  intro xs b rest hxs hdone
  cases xs with
  | nil => cases hdone
  | cons s xs =>
    obtain ⟨zs, rfl, hb⟩ := hf s (hxs.sublist (List.sublist_cons_self _ _)) hdone
    exact ⟨s :: zs, rfl, hb (hxs.sublist (List.sublist_append_left _ _))⟩

/-- The action takes one word last. -/
theorem covers_lastWord {g : Span → β} (h : ∀ s, Ψ (g s) [s]) :
    Covers V (word >>= fun s => pure (g s)) Ψ :=
  covers_word fun s => covers_pure fun _ => h s

theorem Covers.map {g : α → β} (hx : Covers V x Φ)
    (h : ∀ a ys, Φ a ys → Ordered V ys → Ψ (g a) ys) :
    Covers V (x >>= fun a => pure (g a)) Ψ := by
  refine hx.bind fun a ys ha => covers_pure fun hy => ?_
  rw [List.append_nil] at hy ⊢
  exact h a ys ha hy

end Placing

open Placing

section PlaceFits

variable {V : Span → Prop}

theorem placeNames_fits (hV : SpanLaw V) (ids : List Ident) :
    Covers V (placeNames ids) fun ids ys => FitsAll V (ids.map .ident) ys := by
  induction ids with
  | nil => exact covers_pure fitsAll_nil
  | cons id ids ih =>
    rw [placeNames]
    refine covers_word fun s => ih.map fun ids ys hids _ hy => ?_
    have hid : Fits V (.ident ⟨id.name, s⟩) [s] :=
      fits_of_parts hV (hy.sublist (by simp)) (spans_single s) fitsAll_nil .nil
    exact (hids.mono (List.subset_cons_self _ _)).cons hid (by simp)

mutual

/-- An expression covers its words, and its parts lie inside. -/
theorem Expr.place_fits (hV : SpanLaw V) :
    ∀ e : Expr, Covers V e.place fun e ys => Fits V (.expr e) ys
  | .ident _ | .int _ _ | .str _ _ | .command _ _ => by
    rw [Expr.place]
    refine covers_word fun s => covers_pure fun hy => ?_
    exact fits_of_parts hV hy (spans_single s) fitsAll_nil .nil
  | .absent _ => nofun
  | .array elements _ => by
    rw [Expr.place]
    refine covers_word fun opening => (Expr.placeAll_fits hV elements).bind fun elements ys hys =>
      covers_lastWord fun closing _ hy => ?_
    have hspan := spans_ends opening ys closing
    exact fits_of_parts hV hy hspan (hys.mono (by simp)) .nil
  | .prefixOp op operand _ => by
    rw [Expr.place]
    split
    · refine (operand.place_fits hV).bind fun operand ys hoperand => covers_lastWord fun w hy => ?_
      have hspan := hoperand.spans.concat w
      exact fits_of_parts hV hy hspan (fitsAll_nil.cons hoperand (by simp)) .nil
    · refine covers_word fun w => (operand.place_fits hV).map fun operand ys hoperand _ hy => ?_
      have hspan := hoperand.spans.cons w
      exact fits_of_parts hV hy hspan (fitsAll_nil.cons hoperand (by simp)) .nil
  | .infixOp _ left right _ => by
    rw [Expr.place]
    refine (left.place_fits hV).bind fun left ys hleft => covers_word fun w =>
      (right.place_fits hV).map fun right zs hright _ _ hy => ?_
    have hspan := hleft.spans.append (hright.spans.cons w)
    refine fits_of_parts hV hy hspan ?_ .nil
    exact (fitsAll_nil.cons hright (by simp)).cons hleft (by simp)
  | .index container position _ => by
    rw [Expr.place]
    refine (container.place_fits hV).bind fun container ys hcontainer => covers_word fun w =>
      (position.place_fits hV).bind fun position zs hposition =>
        covers_lastWord fun closing _ _ hy => ?_
    have hspan := hcontainer.spans.append (spans_ends w zs closing)
    refine fits_of_parts hV hy hspan ((fitsAll_nil.cons hposition ?_).cons hcontainer (by simp))
      .nil
    exact fun y hmem => by simp [hmem]
  | .call callee arguments _ => by
    rw [Expr.place]
    refine (callee.place_fits hV).bind fun callee ys hcallee => covers_word fun w =>
      (Expr.placeAll_fits hV arguments).bind fun arguments zs harguments =>
        covers_lastWord fun closing _ _ hy => ?_
    have hspan := hcallee.spans.append (spans_ends w zs closing)
    refine fits_of_parts hV hy hspan ((harguments.mono ?_).cons hcallee (by simp)) .nil
    exact fun y hmem => by simp [hmem]
  | .builtin _ arguments _ => by
    rw [Expr.place]
    refine covers_word fun opening => covers_word fun w =>
      (Expr.placeAll_fits hV arguments).bind fun arguments zs harguments =>
        covers_lastWord fun closing _ _ hy => ?_
    have hspan := spans_ends opening (w :: zs) closing
    refine fits_of_parts hV hy hspan (harguments.builtin hV hy hspan ?_) .nil
    exact fun y hmem => by simp [hmem]
  | .function literal => by
    rw [Expr.place]
    refine covers_word fun opening =>
      (literal.place_fits hV opening).map fun literal ys h _ hy => ?_
    have hliteral := h [] hy
    exact fits_of_parts hV hy hliteral.spans (fitsAll_nil.cons hliteral (List.Subset.refl _)) .nil
  | .nested inner _ => by
    rw [Expr.place]
    refine covers_word fun opening => (inner.place_fits hV).bind fun inner ys hinner =>
      covers_lastWord fun closing _ hy => ?_
    have hspan := spans_ends opening ys closing
    exact fits_of_parts hV hy hspan (fitsAll_nil.cons hinner (by simp)) .nil

theorem Expr.placeAll_fits (hV : SpanLaw V) :
    ∀ es : List Expr, Covers V (Expr.placeAll es) fun es ys => FitsAll V (es.map .expr) ys
  | [] => covers_pure fitsAll_nil
  | e :: es => by
    rw [Expr.placeAll]
    split
    · exact Expr.placeAll_fits hV es
    · refine (e.place_fits hV).bind fun e ys he =>
        (Expr.placeAll_fits hV es).map fun es zs hes _ _ => ?_
      exact (hes.mono (List.subset_append_right _ _)).cons he (List.subset_append_left _ _)

/-- A function fits its places together with those of the words before it, from
its first word on. -/
theorem FunctionLit.place_fits (hV : SpanLaw V) (opening : Span) : ∀ f : FunctionLit,
    Covers V (f.place opening) fun f ys => ∀ ws, Ordered V (opening :: (ws ++ ys)) →
      Fits V (.function f) (opening :: (ws ++ ys))
  | ⟨params, body, _⟩ => by
    rw [FunctionLit.place]
    refine covers_word fun a => (placeNames_fits hV params).bind fun params ys hparams =>
      covers_word fun b => covers_word fun c => (body.place_fits hV).bind fun body zs hbody =>
        covers_lastWord fun closing _ _ _ _ _ ws hy => ?_
    have hspan := spans_ends opening (ws ++ a :: (ys ++ b :: c :: zs)) closing
    simp only [List.append_assoc, List.cons_append] at hspan
    refine fits_of_parts hV hy hspan (FitsAll.append (hparams.mono ?_) ?_) .nil
    · exact fun y hmem => by simp [hmem]
    · exact fitsAll_nil.cons hbody fun y hmem => by simp [hmem]

theorem Block.place_fits (hV : SpanLaw V) :
    ∀ b : Block, Covers V b.place fun b ys => Fits V (.block b) ys
  | ⟨statements, _⟩ => by
    rw [Block.place]
    refine covers_word fun colon => (Stmt.placeAll_fits hV statements).map
      fun statements ys hstatements _ hy => ?_
    have hspan := hstatements.ends colon [colon] (spans_single colon)
    exact fits_of_parts hV hy hspan (hstatements.parts.mono (by simp)) hstatements.apart

theorem Stmt.place_fits (hV : SpanLaw V) :
    ∀ s : Stmt, Covers V s.place fun s ys => Fits V (.stmt s) ys
  | .expr e => by
    rw [Stmt.place]
    refine (e.place_fits hV).map fun e ys he hy => ?_
    exact fits_of_parts hV hy he.spans (fitsAll_nil.cons he (List.Subset.refl _)) .nil
  | .assign target value _ => by
    rw [Stmt.place]
    refine (target.place_fits hV).bind fun target ys htarget => covers_word fun w =>
      (value.place_fits hV).map fun value zs hvalue _ _ hy => ?_
    have hends := htarget.spans.append (hvalue.spans.cons w)
    have hspan := htarget.spans.cover hV hvalue.spans hends hy (by simp) (by simp)
    refine fits_of_parts hV hy hspan ?_ .nil
    exact (fitsAll_nil.cons hvalue (by simp)).cons htarget (by simp)
  | .conditional c => by
    rw [Stmt.place]
    refine (c.place_fits hV).map fun c ys hc hy => ?_
    exact fits_of_parts hV hy hc.spans (fitsAll_nil.cons hc (List.Subset.refl _)) .nil
  | .counted counter first last step _ body _ => by
    rw [Stmt.place]
    refine covers_word fun counterSpan => covers_word fun a =>
      (first.place_fits hV).bind fun first us hfirst => covers_word fun b =>
        (last.place_fits hV).bind fun last vs hlast => covers_word fun c =>
          (step.place_fits hV).bind fun step xs hstep => covers_word fun d => covers_word fun e =>
            (body.place_fits hV).map fun body ys hbody _ _ _ _ _ _ _ _ _ hy => ?_
    have hcounter : Fits V (.ident ⟨counter.name, counterSpan⟩) [counterSpan] :=
      fits_of_parts hV (hy.sublist (by simp)) (spans_single counterSpan) fitsAll_nil .nil
    have hstepped := hstep.spans.append ((hbody.spans.cons e).cons d)
    have hlasted := hlast.spans.append (hstepped.cons c)
    have hends := ((hfirst.spans.append (hlasted.cons b)).cons a).cons counterSpan
    have hspan := (spans_single counterSpan).cover hV hbody.spans hends hy (by simp)
      fun y hmem => by simp [hmem]
    refine fits_of_parts hV hy hspan (((((fitsAll_nil.cons hbody ?_).cons hstep ?_).cons hlast
      ?_).cons hfirst ?_).cons hcounter ?_) .nil
    all_goals exact fun y hmem => by simp_all
  | .whileLoop condition body _ => by
    rw [Stmt.place]
    refine (condition.place_fits hV).bind fun condition ys hcondition => covers_word fun w =>
      (body.place_fits hV).map fun body zs hbody _ _ hy => ?_
    have hends := hcondition.spans.append (hbody.spans.cons w)
    have hspan := hcondition.spans.cover hV hbody.spans hends hy (by simp) (by simp)
    refine fits_of_parts hV hy hspan ?_ .nil
    exact (fitsAll_nil.cons hbody (by simp)).cons hcondition (by simp)
  | .untilLoop body condition _ => by
    rw [Stmt.place]
    refine covers_word fun opening => (body.place_fits hV).bind fun body ys hbody =>
      covers_word fun w => (condition.place_fits hV).bind fun condition zs hcondition =>
        covers_lastWord fun closing _ _ _ hy => ?_
    have hspan := spans_ends opening (ys ++ w :: zs) closing
    rw [List.append_assoc] at hspan
    refine fits_of_parts hV hy hspan ((fitsAll_nil.cons hcondition ?_).cons hbody ?_) .nil
    · exact fun y hmem => by simp [hmem]
    · exact fun y hmem => by simp [hmem]
  | .change target amount _ _ => by
    rw [Stmt.place]
    refine (target.place_fits hV).bind fun target ys htarget => covers_word fun w =>
      (amount.place_fits hV).bind fun amount zs hamount =>
        covers_lastWord fun closing _ _ hy => ?_
    have hspan := htarget.spans.append (spans_ends w zs closing)
    refine fits_of_parts hV hy hspan ((fitsAll_nil.cons hamount ?_).cons htarget (by simp)) .nil
    exact fun y hmem => by simp [hmem]
  | .define name function _ => by
    rw [Stmt.place]
    refine covers_word fun opening => covers_word fun nameSpan =>
      (function.place_fits hV opening).map fun function ys hfunction _ _ hy => ?_
    have hname : Fits V (.ident ⟨name.name, nameSpan⟩) [nameSpan] :=
      fits_of_parts hV (hy.sublist (by simp)) (spans_single nameSpan) fitsAll_nil .nil
    have hfits := hfunction [nameSpan] hy
    refine fits_of_parts hV hy hfits.spans.again ?_ .nil
    exact (fitsAll_nil.cons hfits (List.Subset.refl _)).cons hname (by simp)
  | .giveBack value _ => by
    rw [Stmt.place]
    refine (value.place_fits hV).bind fun value ys hvalue => covers_lastWord fun w hy => ?_
    have hspan := hvalue.spans.concat w
    exact fits_of_parts hV hy hspan (fitsAll_nil.cons hvalue (by simp)) .nil

theorem Stmt.placeAll_fits (hV : SpanLaw V) :
    ∀ ss : List Stmt, Covers V (Stmt.placeAll ss) (FitStatements V)
  | [] => covers_pure fitStatements_nil
  | s :: ss => by
    rw [Stmt.placeAll]
    exact (s.place_fits hV).bind fun s ys hs => (Stmt.placeAll_fits hV ss).map fun ss zs hss _ hy =>
      hss.cons hs hy

theorem Conditional.place_fits (hV : SpanLaw V) :
    ∀ c : Conditional, Covers V c.place fun c ys => Fits V (.conditional c) ys
  | ⟨condition, consequence, alternative, _⟩ => by
    rw [Conditional.place]
    refine covers_word fun opening => (condition.place_fits hV).bind fun condition xs hcondition =>
      covers_word fun w => (consequence.place_fits hV).bind fun consequence ys hconsequence =>
        (alternative.place_fits hV).map fun alternative zs halternative _ _ _ _ hy => ?_
    have hhead := (hcondition.spans.append (hconsequence.spans.cons w)).cons opening
    have hspan := halternative.ends _ _ hhead
    simp only [List.cons_append, List.append_assoc] at hspan
    refine fits_of_parts hV hy hspan (((halternative.parts.mono ?_).cons hconsequence ?_).cons
      hcondition ?_) .nil
    · exact fun y hmem => by simp [hmem]
    · exact fun y hmem => by simp [hmem]
    · exact fun y hmem => by simp [hmem]

theorem ElseBranch.place_fits (hV : SpanLaw V) :
    ∀ b : ElseBranch, Covers V b.place (FitBranch V)
  | .missing => covers_pure ⟨fitsAll_nil, fun _ _ h => by rwa [List.append_nil]⟩
  | .elseIf c => by
    rw [ElseBranch.place]
    refine (c.place_fits hV).map fun c ys hc _ => ?_
    exact ⟨fitsAll_nil.cons hc (List.Subset.refl _), fun _ _ h => h.append hc.spans⟩
  | .otherwise b => by
    rw [ElseBranch.place]
    refine covers_word fun w => (b.place_fits hV).map fun b ys hb _ _ => ?_
    refine ⟨fitsAll_nil.cons hb (List.subset_cons_self _ _), fun s zs h => ?_⟩
    have hspan := h.append (hb.spans.cons w)
    exact hspan

end

/-- A program is located, also one without statements. -/
theorem Program.place_located (hV : SpanLaw V) (hnone : V default) (p : Program) :
    Covers V p.place fun p _ => (Node.program p).Located V := by
  refine (Stmt.placeAll_fits hV p.statements).map fun ss ys hss hy => ?_
  have hlocated : ∀ c ∈ (Node.program ⟨ss, coverAll ss⟩).children, c.Located V := fun c hc => by
    obtain ⟨zs, -, hfits⟩ := hss.parts c hc
    exact hfits.located
  cases hlast : ss.getLast? with
  | none =>
    obtain rfl := List.getLast?_eq_none_iff.1 hlast
    exact .mk hnone nofun .nil nofun
  | some last =>
    obtain ⟨first, rest, rfl⟩ : ∃ first rest, ss = first :: rest :=
      List.exists_cons_of_ne_nil fun hnil => by rw [hnil] at hlast; cases hlast
    -- the spans of the statements are places that lie one behind the other
    have hspans : Ordered V ((first :: rest).map Stmt.span) := by
      refine ⟨List.forall_mem_map.2 fun s hs => ?_, List.pairwise_map.2 hss.apart⟩
      obtain ⟨hvalid, -⟩ := hlocated (.stmt s) (List.mem_map_of_mem hs)
      exact hvalid
    have hends : Spans ⟨first.span.start, last.span.stop⟩ ((first :: rest).map Stmt.span) :=
      ⟨first.span, last.span, rfl, by rw [List.getLast?_map, hlast]; rfl, rfl⟩
    have hcover : Spans (coverAll (first :: rest)) ((first :: rest).map Stmt.span) := by
      rw [coverAll, hlast]
      refine (spans_single _).cover hV (spans_single _) hends hspans ?_ ?_
      · exact List.cons_subset.2 ⟨List.mem_cons_self, List.nil_subset _⟩
      · exact List.cons_subset.2
          ⟨List.mem_map_of_mem (List.mem_of_getLast? hlast), List.nil_subset _⟩
    refine .mk (hcover.valid hV hspans) (fun c hc => ?_) hss.apart hlocated
    obtain ⟨s, hs, rfl⟩ := List.mem_map.1 hc
    exact hcover.within hV hspans (List.mem_map_of_mem hs)

end PlaceFits

end Dncl
