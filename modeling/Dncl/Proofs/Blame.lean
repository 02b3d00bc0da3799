/-
Dncl/Proofs/Blame.lean

Errors point into the program.

`Program.places` lists the spans of all expressions, names and statements of a
program.  An error that ends a run of the program with the console has one of
these spans, wherever the code that failed was run from.

Design.  A machine may blame the code that it still has: that of its control,
of its frames and of the functions in its store.  That the places of all of it,
and the place of an error that is handed on, lie in `S` is a law about code
(`pointsInto S`).  What a part is made of has no other places than the part, so
every run keeps to the law.
-/
import Dncl.Proofs.CodeLaw

namespace Dncl

/-! ### The places of a program -/

mutual

/-- The spans of an expression and of what it is made of. -/
def Expr.places : Expr → List Span
  | .ident id => [id.span]
  | .int _ span => [span]
  | .str _ span => [span]
  | .absent span => [span]
  | .array elements span => span :: Expr.placesAll elements
  | .prefixOp _ operand span => span :: operand.places
  | .infixOp _ left right span => span :: (left.places ++ right.places)
  | .index container position span => span :: (container.places ++ position.places)
  | .call callee arguments span => span :: (callee.places ++ Expr.placesAll arguments)
  | .builtin _ arguments span => span :: Expr.placesAll arguments
  | .function literal => literal.span :: literal.places
  | .command _ span => [span]
  | .nested inner span => span :: inner.places

/-- The spans of some expressions and of what they are made of. -/
def Expr.placesAll : List Expr → List Span
  | [] => []
  | e :: es => e.places ++ Expr.placesAll es

/-- The spans of the parameters and in the body of a function. -/
def FunctionLit.places : FunctionLit → List Span
  | ⟨params, body, _⟩ => params.map Ident.span ++ body.places

/-- The spans in a block. -/
def Block.places : Block → List Span
  | ⟨statements, _⟩ => Stmt.placesAll statements

/-- The spans of a statement and of what it is made of. -/
def Stmt.places : Stmt → List Span
  | .expr e => e.places
  | .assign target value span => span :: (target.places ++ value.places)
  | .conditional c => c.span :: c.places
  | .counted counter first last step _ body span =>
    span :: counter.span :: (first.places ++ (last.places ++ (step.places ++ body.places)))
  | .whileLoop condition body span => span :: (condition.places ++ body.places)
  | .untilLoop body condition span => span :: (body.places ++ condition.places)
  | .change target amount _ span => span :: (target.places ++ amount.places)
  | .define name function span => span :: name.span :: function.places
  | .giveBack value span => span :: value.places

/-- The spans of some statements and of what they are made of. -/
def Stmt.placesAll : List Stmt → List Span
  | [] => []
  | s :: ss => s.places ++ Stmt.placesAll ss

/-- The spans in a conditional. -/
def Conditional.places : Conditional → List Span
  | ⟨condition, consequence, alternative, _⟩ =>
    condition.places ++ (consequence.places ++ alternative.places)

/-- The spans in a branch. -/
def ElseBranch.places : ElseBranch → List Span
  | .missing => []
  | .elseIf c => c.places
  | .otherwise b => b.places

end

/-- The spans of all expressions, names and statements of a program. -/
def Program.places (p : Program) : List Span :=
  Stmt.placesAll p.statements

theorem Expr.span_mem_places (e : Expr) : e.span ∈ e.places := by
  cases e <;> exact List.mem_cons_self

theorem Stmt.span_mem_places (s : Stmt) : s.span ∈ s.places := by
  cases s with
  | expr e => exact e.span_mem_places
  | _ => exact List.mem_cons_self

theorem Expr.mem_placesAll {span : Span} {e : Expr} {es : List Expr} (h : e ∈ es)
    (hspan : span ∈ e.places) : span ∈ Expr.placesAll es := by
  induction h with
  | head es => exact List.mem_append_left _ hspan
  | tail e' _ ih => exact List.mem_append_right _ ih

theorem Stmt.mem_placesAll {span : Span} {s : Stmt} {ss : List Stmt} (h : s ∈ ss)
    (hspan : span ∈ s.places) : span ∈ Stmt.placesAll ss := by
  induction h with
  | head ss => exact List.mem_append_left _ hspan
  | tail s' _ ih => exact List.mem_append_right _ ih

/-! ### The places of parts -/

/-- The spans in a node. -/
def Node.places : Node → List Span
  | program p => p.places
  | stmt s => s.places
  | conditional c => c.places
  | block b => b.places
  | expr e => e.places
  | function f => f.places
  | ident id => [id.span]

/-- The spans that may be blamed with a part. -/
def Part.places : Part → List Span
  | place span => [span]
  | target e => e.places
  | node n => n.places

/-- The places of a child are places of the node. -/
theorem Node.places_child {n c : Node} (h : c ∈ n.children) : c.places ⊆ n.places := by
  intro span hspan
  cases n with
  | program p =>
    obtain ⟨s, hs, rfl⟩ := List.mem_map.1 h
    exact Stmt.mem_placesAll hs hspan
  | block b =>
    obtain ⟨⟨statements, blockSpan⟩, s, hs, rfl⟩ := b, List.mem_map.1 h
    exact Stmt.mem_placesAll hs hspan
  | stmt s => cases s <;> grind [Node.places, Stmt.places, Node.children, Stmt.nodes]
  | conditional c =>
    obtain ⟨condition, consequence, alternative, place⟩ := c
    cases alternative <;>
      grind [Node.places, Conditional.places, ElseBranch.places, Node.children, ElseBranch.nodes]
  | expr e =>
    cases e <;>
      grind [Node.places, Expr.places, Node.children, Expr.nodes, Expr.mem_placesAll]
  | function f =>
    obtain ⟨params, body, place⟩ := f
    grind [Node.places, FunctionLit.places, Node.children]
  | ident id => cases h

theorem Node.places_own {n : Node} {p : Part} (h : p ∈ n.own) : p.places ⊆ n.places := by
  cases n with
  | stmt s =>
    rcases List.mem_cons.1 h with rfl | h
    · exact List.cons_subset.2 ⟨s.span_mem_places, List.nil_subset _⟩
    · obtain ⟨e, he, rfl⟩ := List.mem_map.1 h
      exact Node.places_child (c := .expr e) (Stmt.target_mem_nodes (Option.mem_toList.1 he))
  | expr e =>
    obtain rfl := List.mem_singleton.1 h
    exact List.cons_subset.2 ⟨e.span_mem_places, List.nil_subset _⟩
  | ident id =>
    obtain rfl := List.mem_singleton.1 h
    exact List.Subset.refl _
  | _ => cases h

/-- Going down to a part brings no new places. -/
theorem Part.places_subset {p q : Part} (h : q ∈ p.parts) : q.places ⊆ p.places := by
  cases p with
  | place span => cases h
  | target e => cases h
  | node n =>
    rcases List.mem_append.1 h with h | h
    · exact Node.places_own h
    · obtain ⟨c, hc, rfl⟩ := List.mem_map.1 h
      exact Node.places_child hc

/-! ### The law -/

/-- All that may be blamed lies in `S`, and so does what is blamed. -/
def pointsInto (S : List Span) : CodeLaw where
  holds p := p.places ⊆ S
  admits v := v.isError = true → v.span ∈ S
  holds_parts h hq := List.Subset.trans (Part.places_subset hq) h
  admits_data h herror := absurd (h.symm.trans herror) Bool.false_ne_true
  admits_fault {f span} h _ _ := by
    rw [Fault.span_valueAt]
    exact h List.mem_cons_self
  admits_refusal {target} h _ _ := by
    rw [Fault.span_valueAt]
    exact h target.span_mem_places

/-- All that the machine may blame lies in `S`. -/
def Machine.PointsInto (S : List Span) (m : Machine Console) : Prop :=
  (pointsInto S).Obeyed m

namespace Machine.PointsInto

variable {settings : Settings} {S : List Span} {m : Machine Console}

theorem load {s : Session Console} (hs : ∀ ref, (s.store.closure ref).literal.places ⊆ S)
    {p : Program} (hp : p.places ⊆ S) : (load s p).PointsInto S := by
  have hclosures : (pointsInto S).HoldsIn s.store := by
    intro c hc
    obtain ⟨ref, rfl⟩ := Store.exists_closure hc
    exact hs ref
  exact hclosures.load fun s hmem span hspan => hp (Stmt.mem_placesAll hmem hspan)

theorem run (h : m.PointsInto S) (hs : Sound m) (n : Nat) :
    (m.run Console.host settings n).PointsInto S :=
  CodeLaw.Obeyed.run_console h hs n

/-- An error that the machine has come to has a place in `S`. -/
theorem span_outcome (h : m.PointsInto S) (hs : Sound m) {v : Value}
    (hv : m.outcome? = some (.ok v)) (herror : v.isError = true) : v.span ∈ S :=
  CodeLaw.Obeyed.outcome h hs hv herror

/-- Stored functions point into the program. -/
theorem closures (h : m.PointsInto S) (ref : ClosureRef) :
    (m.store.closure ref).literal.places ⊆ S := by
  rcases m.store.closure_mem_or ref with hmem | hnone
  · exact CodeLaw.Obeyed.closures h _ hmem
  · rw [hnone]
    exact List.nil_subset _

end Machine.PointsInto

/-! ### Main result -/

/-- **Errors point into the program.**  An error or a type error that ends a run
of a program, begun where nothing has run, has the span of an expression, a
name or a statement of the program. -/
theorem errors_point_into_program (settings : Settings) (world : Console) (p : Program) (n : Nat)
    (v : Value)
    (h : ((Session.new world).run Console.host settings n p).1 = some (.ok v))
    (herror : v.isError = true) : v.span ∈ p.places := by
  have hsound : Machine.Sound (Machine.load (Session.new world) p) :=
    Machine.load_sound (fun w hw => absurd hw (Session.not_stored_new world w)) p
  have hclosures : ∀ ref, ((Session.new world).store.closure ref).literal.places ⊆ p.places :=
    fun _ => List.nil_subset _
  have hload := Machine.PointsInto.load hclosures (List.Subset.refl p.places)
  exact (hload.run hsound n).span_outcome (Machine.run_sound hsound n) h herror

/-- A function that takes the first element of its argument, called with a number
in a loop. -/
def indexesNumber : Program :=
  ⟨[.define ⟨"f", ⟨3, 4⟩⟩ ⟨[⟨"x", ⟨5, 6⟩⟩],
      ⟨[.expr (.index (.ident ⟨"x", ⟨10, 11⟩⟩) (.int 1 ⟨12, 13⟩) ⟨10, 14⟩)], ⟨8, 14⟩⟩, ⟨0, 18⟩⟩
      ⟨0, 18⟩,
    .counted ⟨"i", ⟨19, 20⟩⟩ (.int 1 ⟨21, 22⟩) (.int 2 ⟨23, 24⟩) (.int 1 ⟨25, 26⟩) .increasing
      ⟨[.expr (.call (.ident ⟨"f", ⟨30, 31⟩⟩) [.ident ⟨"i", ⟨32, 33⟩⟩] ⟨30, 34⟩)], ⟨28, 34⟩⟩
      ⟨19, 34⟩], ⟨0, 34⟩⟩

theorem errors_point_into_program_loop :
    ∃ v, ((Session.new {}).run Console.host {} 40 indexesNumber).1 = some (.ok v) ∧
      v.isError = true ∧ v.span = ⟨10, 14⟩ ∧ v.span ∈ indexesNumber.places :=
  ⟨_, rfl, rfl, rfl, errors_point_into_program {} {} indexesNumber 40 _ rfl rfl⟩

end Dncl
