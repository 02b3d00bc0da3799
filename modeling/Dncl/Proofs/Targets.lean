/-
Dncl/Proofs/Targets.lean

Parsed programs store only in variables and in their elements.

A statement that stores a value has a target.  In a program that was parsed the
target is rooted at a name: it is the name, or an element of what is rooted at
it.  So the machine, which refuses any other target, never does so while it runs
such programs, whatever functions of such programs it calls.

Design.  The two checks of the parser are premises of a derivation.  `Tidy` says
of a node what they ask for, and of all nodes below it; each rule of a derivation
puts a tidy node together from tidy ones.  That the code of a machine is code of
parsed programs is a law about code (`ofParsed`), and with the console so is that
no value is the refusal of a target (`unrefused`).
-/
import Dncl.Proofs.CodeLaw
import Dncl.Proofs.Words

namespace Dncl

variable {e : Expr}

/-! ### Targets -/

/-- The expression is the name, or an element of what is rooted at it. -/
inductive Expr.RootedAt (id : Ident) : Expr → Prop
  | ident : RootedAt id (.ident id)
  | index {container : Expr} (position : Expr) (span : Span) :
      RootedAt id container → RootedAt id (.index container position span)

theorem Expr.isAssignable_iff : e.isAssignable = true ↔ ∃ id, e.RootedAt id := by
  constructor
  · intro h
    fun_induction Expr.isAssignable e with
    | case1 id => exact ⟨id, .ident⟩
    | case2 container position span ih =>
      obtain ⟨id, hid⟩ := ih h
      exact ⟨id, .index position span hid⟩
    | case3 => cases h
  · rintro ⟨id, h⟩
    induction h with
    | ident => rfl
    | index position span _ ih => exact ih

/-- All that is stored in, in the node and below it, is assignable. -/
inductive Node.Tidy : Node → Prop
  | mk {n : Node} : (∀ e, .target e ∈ n.own → e.isAssignable = true) →
      (∀ c ∈ n.children, c.Tidy) → n.Tidy

theorem Node.tidy_iff (n : Node) : n.Tidy ↔
    (∀ e, .target e ∈ n.own → e.isAssignable = true) ∧ ∀ c ∈ n.children, c.Tidy :=
  ⟨fun ⟨hown, hchildren⟩ => ⟨hown, hchildren⟩, fun ⟨hown, hchildren⟩ => ⟨hown, hchildren⟩⟩

theorem Node.Tidy.of_isIn {n root : Node} (h : root.Tidy) (hn : n.IsIn root) : n.Tidy := by
  induction hn with
  | refl => exact h
  | tail _ hchild ih => exact ((Node.tidy_iff _).1 ih).2 _ hchild

/-! ### Derivations -/

/-- The nodes that a phrase of the form is read as. -/
def Form.nodes : (f : Form) → f.Tree → List Node
  | .operand, e | .expression _, e | .operators _ _, e => [.expr e]
  | .items _, es | .expressions, es => es.map .expr
  | .paramItems, ids | .params, ids => ids.map .ident
  | .function, literal => [.function literal]
  | .block, b => [.block b]
  | .sameLine, ss | .statements _, ss => ss.map .stmt
  | .statement, s | .continued _, s => [.stmt s]
  | .conditional, c => [.conditional c]
  | .elseBranch, b => b.nodes

/-- The node that a phrase of the form goes on with. -/
def Form.given : Form → List Node
  | .operators _ left => [.expr left]
  | .continued e => [.expr e]
  | _ => []

/-- What is read is tidy, if what it goes on with is. -/
theorem Reads.tidy {f : Form} {c c' : Bool} {ts ts' : List Token} {t : f.Tree}
    (h : Reads f c ts t c' ts') (hgiven : ∀ n ∈ f.given, n.Tidy) : ∀ n ∈ f.nodes t, n.Tidy := by
  induction h with
  | assign span assignable _ ih =>
    -- the check stands before the value is read
    have hvalue := ih nofun
    grind [Form.nodes, Form.given, Node.tidy_iff, Node.own, Stmt.target?, Node.children, Stmt.nodes]
  | change direction span assignable _ ih =>
    have hamount := ih nofun
    grind [Form.nodes, Form.given, Node.tidy_iff, Node.own, Stmt.target?, Node.children, Stmt.nodes]
  | _ =>
    -- the children of the node are those that the premises read
    grind [Form.nodes, Form.given, Node.tidy_iff, Node.own, Stmt.target?, Node.children,
      Expr.nodes, Stmt.nodes, ElseBranch.nodes, Builtin.arguments]

/-- The node is part of a program that was parsed. -/
def Node.Parsed (n : Node) : Prop :=
  ∃ text p, parseProgram text = .ok p ∧ n.IsIn (.program p)

theorem Node.Parsed.tidy {n : Node} (h : n.Parsed) : n.Tidy := by
  obtain ⟨text, p, hparse, hn⟩ := h
  obtain ⟨ts, c, -, -, hreads⟩ := reads_of_parsed hparse
  have hp : (Node.program p).Tidy := .mk nofun (hreads.tidy nofun)
  exact hp.of_isIn hn

theorem Node.Parsed.target {n : Node} (h : n.Parsed) (he : .target e ∈ n.own) :
    ∃ id, e.RootedAt id :=
  Expr.isAssignable_iff.1 (((Node.tidy_iff n).1 h.tidy).1 e he)

/-! ### The law -/

/-- A part of a program that was parsed. -/
def Part.Parsed : Part → Prop
  | .place _ => True
  | .target e => ∃ id, e.RootedAt id
  | .node n => n.Parsed

theorem Part.Parsed.of_mem {p q : Part} (h : p.Parsed) (hq : q ∈ p.parts) : q.Parsed := by
  cases p with
  | place span => cases hq
  | target e => cases hq
  | node n =>
    rcases List.mem_append.1 hq with hq | hq
    · cases q with
      | place span => trivial
      | target e => exact Node.Parsed.target h hq
      | node c => cases n <;> simp at hq
    · obtain ⟨c, hc, rfl⟩ := List.mem_map.1 hq
      obtain ⟨text, p, hparse, hn⟩ := h
      exact ⟨text, p, hparse, hn.tail hc⟩

theorem Part.Parsed.isAssignable (h : Part.Parsed (.target e)) : e.isAssignable = true :=
  Expr.isAssignable_iff.2 h

/-! ### Refusals -/

theorem first_append {a b : String} {c : Char} (h : a.toList.head? = some c) :
    (a ++ b).toList.head? = some c := by
  rw [String.toList_append, List.head?_append, h]
  rfl

/-- Among the faults that are no faults of a type, only the refusal of a target
has a message that begins with `代`. -/
theorem Fault.first_message {f : Fault} (hrefusal : f.isRefusal = false)
    (htype : f.isTypeFault = false) : ∃ c, f.message.toList.head? = some c ∧ c ≠ '代' := by
  cases f with
  | notAssignable => cases hrefusal
  | undefined | builtinArity | notOneCharacter =>
    refine ⟨'`', ?_, by decide⟩
    repeat apply first_append
    decide
  | overflow => exact ⟨'計', by decide, by decide⟩
  | divisionByZero => exact ⟨'0', by decide, by decide⟩
  | selfContaining => exact ⟨'配', by decide, by decide⟩
  | stepNotPositive => exact ⟨'増', by decide, by decide⟩
  | noInput => exact ⟨'入', by decide, by decide⟩
  | wrongArity =>
    refine ⟨'引', ?_, by decide⟩
    repeat apply first_append
    decide
  | tooDeep =>
    refine ⟨'関', ?_, by decide⟩
    repeat apply first_append
    decide
  | outOfRange =>
    refine ⟨'添', ?_, by decide⟩
    repeat apply first_append
    decide
  | printFailed => exact ⟨'表', first_append (by decide), by decide⟩
  | inputFailed => exact ⟨'入', first_append (by decide), by decide⟩
  | _ => cases htype

/-- The value is the refusal of a target. -/
def Value.IsRefusal (v : Value) : Prop :=
  ∃ place, v = Fault.notAssignable.valueAt place

theorem Fault.not_isRefusal_valueAt {f : Fault} (h : f.isRefusal = false) (span : Span) :
    ¬ (f.valueAt span).IsRefusal := by
  rintro ⟨place, heq⟩
  have hrefusal : Fault.notAssignable.valueAt place =
      .error Fault.notAssignable.message place := if_neg Bool.false_ne_true
  rw [hrefusal, Fault.valueAt] at heq
  cases htype : f.isTypeFault with
  | true =>
    rw [htype] at heq
    exact Value.noConfusion heq
  | false =>
    rw [htype] at heq
    obtain ⟨c, hc, hne⟩ := Fault.first_message h htype
    rw [(Value.error.inj heq).1] at hc
    exact hne (Option.some.inj (hc.symm.trans (by decide)))

/-- All code is that of parsed programs. -/
def ofParsed : CodeLaw where
  holds := Part.Parsed
  admits _ := True
  holds_parts := Part.Parsed.of_mem
  admits_data _ := trivial
  admits_fault _ _ := trivial
  admits_refusal _ _ := trivial

/-- As `ofParsed`, and no value is the refusal of a target. -/
def unrefused : CodeLaw where
  holds := Part.Parsed
  admits v := ¬ v.IsRefusal
  holds_parts := Part.Parsed.of_mem
  admits_data h := by
    rintro ⟨place, rfl⟩
    cases h
  admits_fault _ hf := Fault.not_isRefusal_valueAt hf _
  admits_refusal h hrefused := by
    rw [Part.Parsed.isAssignable h] at hrefused
    cases hrefused

/-- Every function of the store is one of a program that was parsed. -/
def Store.HoldsParsed (st : Store) : Prop :=
  ∀ c ∈ st.closures, (Node.function c.literal).Parsed

/-- The host makes no functions. -/
structure Host.MakesNoFunctions {σ : Type} (host : Host σ) : Prop where
  builtin : ∀ function arguments span st world,
    (host.builtin function arguments span st world).2.1.closures = st.closures
  command : ∀ c span st world, (host.command c span st world).2.1.closures = st.closures

theorem Host.MakesNoFunctions.followed {σ : Type} {host : Host σ} (h : host.MakesNoFunctions) :
    ofParsed.Followed host where
  builtin _ _ _ _ _ _ hst := ⟨hst.of_closures (h.builtin _ _ _ _ _), trivial⟩
  command _ _ _ _ _ hst := ⟨hst.of_closures (h.command _ _ _ _), trivial⟩

theorem Console.makesNoFunctions : Console.host.MakesNoFunctions :=
  ⟨fun _ _ _ _ _ => rfl, fun _ _ _ _ => rfl⟩

theorem Program.parsed_statements {text : String} {p : Program} (h : parseProgram text = .ok p) :
    ∀ s ∈ p.statements, (Node.stmt s).Parsed :=
  fun _ hs => ⟨text, p, h, .single (List.mem_map_of_mem hs)⟩

/-! ### Main result -/

/-- The expression that a frame is going to store in. -/
def Frame.target? : Frame → Option Expr
  | assign target _ _ => some target
  | changeTarget target _ _ _ _ => some target
  | changeAmount target _ _ _ _ => some target
  | _ => none

theorem Frame.target_mem_parts {f : Frame} (h : f.target? = some e) : .target e ∈ f.parts := by
  cases f <;> cases h <;> simp

/-- A value that is stored in what is rooted at a name is not refused. -/
theorem Expr.RootedAt.control_beginStore {σ : Type} {id : Ident} (h : e.RootedAt id) (m : Machine σ)
    (v : Value) (env : Env) (span : Span) (w : Value)
    (hw : (m.beginStore e v env span).control = .value w) : ¬ w.IsRefusal := by
  cases h with
  | ident =>
    rintro ⟨place, rfl⟩
    cases hw
  | index position slot _ => cases hw

/-- **Parsed programs store only in variables and in their elements.**  Let `p`
be a program that was parsed.

* Every statement of `p` that stores a value, however deep inside functions and
  expressions, has a target that is rooted at a name.
* Let `p` run with a host that makes no functions, where all functions are those
  of parsed programs.  In every state they still are, and whatever the machine is
  going to store in is rooted at a name, so that it is not refused.
* With the console, where no stored value is a signal, no value that is handed
  on is the refusal of a target, and the program does not come to one. -/
theorem parsed_targets_rooted (text : String) (p : Program) (h : parseProgram text = .ok p) :
    (∀ s e, (Node.stmt s).IsIn (.program p) → s.target? = some e → ∃ id, e.RootedAt id) ∧
    (∀ (σ : Type) (host : Host σ), host.MakesNoFunctions →
      ∀ (settings : Settings) (s : Session σ), s.store.HoldsParsed →
      ∀ n m, (Machine.load s p).run host settings n = m →
        m.store.HoldsParsed ∧
        ∀ f ∈ m.frames, ∀ e, f.target? = some e → (∃ id, e.RootedAt id) ∧
          ∀ (m' : Machine σ) v env span w,
            (m'.beginStore e v env span).control = .value w → ¬ w.IsRefusal) ∧
    ∀ (settings : Settings) (s : Session Console), s.store.HoldsParsed → s.store.SignalFree →
      ∀ n m, (Machine.load s p).run Console.host settings n = m →
        (∀ v, m.control = .value v → ¬ v.IsRefusal) ∧
        ∀ v, m.outcome? = some (.ok v) → ¬ v.IsRefusal := by
  refine ⟨?_, ?_, ?_⟩
  · intro s e hs he
    have hparsed : (Node.stmt s).Parsed := ⟨text, p, h, hs⟩
    exact hparsed.target (Stmt.target_mem_own he)
  · rintro σ host hhost settings s hs n m rfl
    have hclosures : ofParsed.HoldsIn s.store := hs
    have hload := hclosures.load (Program.parsed_statements h)
    -- the law has no demand on values, so nothing is asked of the host but its functions
    have hrun : ofParsed.Obeyed ((Machine.load s p).run host settings n) :=
      hload.run hhost.followed (fun _ => ⟨fun _ _ => trivial, fun _ _ => trivial,
        fun _ _ _ => trivial⟩) n
    refine ⟨hrun.closures, fun f hf e he => ?_⟩
    obtain ⟨id, hid⟩ := hrun.frames f hf _ (Frame.target_mem_parts he)
    exact ⟨⟨id, hid⟩, hid.control_beginStore⟩
  · rintro settings s hs hfree n m rfl
    have hclosures : unrefused.HoldsIn s.store := hs
    have hsound := Machine.load_sound hfree p
    have hrun : unrefused.Obeyed ((Machine.load s p).run Console.host settings n) :=
      (hclosures.load (Program.parsed_statements h)).run_console hsound n
    exact ⟨hrun.given, fun v hv => hrun.outcome (Machine.run_sound hsound n) hv⟩

/-- Stores 5 in the first element of the first element of `a`. -/
def storing : Stmt :=
  .assign (.index (.index (.ident ⟨"a", ⟨20, 21⟩⟩) (.int 1 ⟨22, 23⟩) ⟨20, 24⟩) (.int 1 ⟨25, 26⟩)
    ⟨20, 27⟩) (.int 5 ⟨30, 31⟩) ⟨20, 31⟩

/-- An array of a function that stores in its argument. -/
def definesStoring : Program :=
  ⟨[.assign (.ident ⟨"f", ⟨0, 1⟩⟩) (.array [.function
    ⟨[⟨"a", ⟨12, 13⟩⟩], ⟨[storing], ⟨18, 31⟩⟩, ⟨5, 47⟩⟩] ⟨4, 48⟩) ⟨0, 48⟩], ⟨0, 48⟩⟩

/-- A call of the function. -/
def callsStoring : Program :=
  ⟨[.expr (.call (.index (.ident ⟨"f", ⟨0, 1⟩⟩) (.int 1 ⟨2, 3⟩) ⟨0, 4⟩)
    [.array [.array [.int 0 ⟨7, 8⟩] ⟨6, 9⟩] ⟨5, 10⟩] ⟨0, 11⟩)], ⟨0, 11⟩⟩

/-- The session in which the function is defined. -/
def storingDefined : Session Console :=
  ((Session.new {}).run Console.host {} 10 definesStoring).2

/-- The statement is found in the function, in an array, on the right of an
assignment; and the function is called by another program. -/
theorem parsed_targets_rooted_nested :
    parseProgram "f = [関数(a) を: a[1][1] = 5 と定義する]" = .ok definesStoring ∧
    parseProgram "f[1]([[0]])" = .ok callsStoring ∧
    (Node.stmt storing).IsIn (.program definesStoring) ∧
    (∃ e id, storing.target? = some e ∧ e.RootedAt id) ∧
    storingDefined.store.HoldsParsed ∧ storingDefined.store.closures.size = 1 ∧
    (∃ f ∈ ((Machine.load storingDefined callsStoring).run Console.host {} 16).frames,
      ∃ e id, f.target? = some e ∧ e.RootedAt id) ∧
    ∃ v, ((Machine.load storingDefined callsStoring).run Console.host {} 40).outcome? =
      some (.ok v) ∧ ¬ v.IsRefusal := by
  have hfirst : parseProgram "f = [関数(a) を: a[1][1] = 5 と定義する]" = .ok definesStoring := by
    decide +kernel
  have hsecond : parseProgram "f[1]([[0]])" = .ok callsStoring := by decide +kernel
  have hin : (Node.stmt storing).IsIn (.program definesStoring) :=
    .tail (.tail (.tail (.tail (.tail (.tail .refl
      List.mem_cons_self) (List.mem_cons_of_mem _ List.mem_cons_self)) List.mem_cons_self)
      List.mem_cons_self) (List.mem_append_right _ List.mem_cons_self)) List.mem_cons_self
  obtain ⟨htargets, hhost, -⟩ := parsed_targets_rooted _ _ hfirst
  have hparsed : storingDefined.store.HoldsParsed :=
    (hhost _ _ Console.makesNoFunctions {} (Session.new {})
      (fun c hc => absurd hc (Array.not_mem_empty c)) 10 _ rfl).1
  have hfree : storingDefined.store.SignalFree :=
    (Machine.run_sound (Machine.load_sound (s := Session.new {})
      (fun v hv => absurd hv (Session.not_stored_new _ v)) definesStoring) 10).obeyed.stored
  obtain ⟨-, hhost, hconsole⟩ := parsed_targets_rooted _ _ hsecond
  refine ⟨hfirst, hsecond, hin, ?_, hparsed, rfl, ?_, ?_⟩
  · obtain ⟨id, hid⟩ := htargets storing _ hin rfl
    exact ⟨_, id, rfl, hid⟩
  · obtain ⟨-, hframes⟩ := hhost _ _ Console.makesNoFunctions {} storingDefined hparsed 16 _ rfl
    obtain ⟨⟨id, hid⟩, -⟩ := hframes _ List.mem_cons_self _ rfl
    exact ⟨_, List.mem_cons_self, _, id, rfl, hid⟩
  · exact ⟨_, rfl, (hconsole {} storingDefined hparsed hfree 40 _ rfl).2 _ rfl⟩

end Dncl
