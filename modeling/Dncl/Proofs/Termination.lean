/-
Dncl/Proofs/Termination.lean

Programs whose only loops count come to an end.

Design.  `Settles` says that a machine comes to a value with given frames left,
and what the store has become.  Code *finishes* if the machine that runs it,
wherever it is runnable, settles with the frames it was started with.  There is
one rule for each phrase: a phrase finishes if its parts do.  The rules do not
say why the bodies of functions finish, and take it for one more active
function (`Deep`); that is an induction on how many more functions may be
active.  Around it the rules are put together along the syntax, and a counted
loop is an induction on how far its variable is from its last value
(`Counting.remaining`): its body leaves the variable alone, because it is
charted as a counter of the loop.
-/
import Dncl.Proofs.Counters
import Dncl.Proofs.SignalFree

namespace Dncl

variable {span : Span} {container e position target value : Expr} {env : Env}

/-- The counters in `own`, in the innermost scope. -/
def Touches (env : Env) (own : List String) : Chart :=
  fun s n => s = env.here ∧ n ∈ own

theorem not_touches_nil {s : ScopeRef} {n : String} : ¬ Touches env [] s n :=
  fun h => List.not_mem_nil h.2

/-- Expressions leave all counters alone. -/
theorem Runnable.afterExpr {V : String → Prop} {A A' : Chart} {st st' : Store} {env' : Env}
    {own : List String} {ds : List Deed} (h : Runnable V A st env own ds)
    (he : st.Evolves V (Touches env' []) A A' st') : Runnable V A' st' env own ds :=
  h.after he fun _ _ => not_touches_nil

/-! ### Counted loops -/

/-- How many values of its variable a loop has before it, at most. -/
def Counting.remaining (loop : Counting) (current : Int) : Nat :=
  match loop.direction with
  | .increasing => (loop.last + 1 - current).toNat
  | .decreasing => (current + 1 - loop.last).toNat

theorem Text.eq_of_checked {a b : Int} (h : Text.checked a = some b) : b = a := by
  rw [Text.checked] at h
  split at h
  · exact (Option.some.inj h).symm
  · cases h

/-- Each round leaves less of the range. -/
theorem Counting.remaining_after {loop : Counting} {current next : Int} (hstep : 0 < loop.step)
    (hin : loop.inRange current = true) (hafter : loop.after? current = some next) :
    loop.remaining next < loop.remaining current := by
  obtain ⟨counter, last, step, direction, body, span, env⟩ := loop
  cases direction with
  | increasing =>
    have hle : current ≤ last := of_decide_eq_true hin
    have hnext : next = current + step := Text.eq_of_checked hafter
    simp only [remaining] at hstep ⊢
    omega
  | decreasing =>
    have hle : last ≤ current := of_decide_eq_true hin
    have hnext : next = current - step := Text.eq_of_checked hafter
    simp only [remaining] at hstep ⊢
    omega

/-- A loop is running: its variable is bound in the innermost scope, where it
belongs. -/
structure Counting.Running (V : String → Prop) (A : Chart) (st : Store) (loop : Counting)
    (current : Int) : Prop where
  body : Runnable V A st loop.env [] loop.body.deeds
  owns : loop.env.Owns V A st loop.counter.name
  value : ∃ span, (st.scope loop.env.here).get? loop.counter.name = some (.int current span)

section Running

variable {V : String → Prop} {A A' : Chart} {st st' : Store} {loop : Counting} {current : Int}

/-- A counter may be changed by its loop. -/
theorem Env.Owns.evolves_assign {n : String} (h : env.Owns V A st n) (hst : st.Charted V A)
    (v : Value) : st.Evolves V (Touches env [n]) A A (st.assign env n v) := by
  rw [h.assign_eq hst]
  exact hst.evolves_bind v fun _ => ⟨h.here, rfl, List.mem_cons_self⟩

theorem Counting.running_assign (loop : Counting)
    (hbody : Runnable V A st loop.env [] loop.body.deeds)
    (howns : loop.env.Owns V A st loop.counter.name) (current : Int) (span : Span) :
    loop.Running V A (st.assign loop.env loop.counter.name (.int current span)) current := by
  have he := howns.evolves_assign hbody.charted (.int current span)
  refine ⟨hbody.after he (by nofun), howns.after hbody.charted he, span, ?_⟩
  rw [howns.assign_eq hbody.charted,
    Store.scope_bind_self (hbody.charted.here _ _ howns.here), Scope.get?_set, if_pos rfl]

/-- Whatever leaves the counters alone leaves the loop running. -/
theorem Counting.Running.after (h : loop.Running V A st current)
    (he : st.Evolves V (Touches env []) A A' st') : loop.Running V A' st' current where
  body := h.body.afterExpr he
  owns := h.owns.after h.body.charted he
  value := by
    rw [he.keeps _ _ (h.body.charted.here _ _ h.owns.here) h.owns.counter not_touches_nil]
    exact h.value

theorem Counting.Running.get?_eq (h : loop.Running V A st current) :
    ∃ span, st.get? loop.env loop.counter.name = some (.int current span) := by
  obtain ⟨span, hvalue⟩ := h.value
  exact ⟨span, by rw [Store.get?, Env.chain, Store.lookup?, hvalue]⟩

end Running

namespace Machine

/-! ### Machines that settle -/

/-- The machine comes to a value, with the frames `fs` and `d` active functions.
The store has evolved from `st`, and only the counters in `P` were changed. -/
def Settles (settings : Settings) (V : String → Prop) (P A : Chart) (st : Store)
    (fs : List Frame) (d : Nat) (m : Machine Console) : Prop :=
  ∃ n v A' st' w, m.run Console.host settings n = ⟨.value v, fs, st', d, w⟩ ∧
    st.Evolves V P A A' st'

section Settles

variable {settings : Settings} {V : String → Prop} {P Q A A' : Chart} {st st' : Store}
  {fs : List Frame} {f : Frame} {d : Nat} {m : Machine Console} {v : Value} {w : Console}

theorem settles_value (h : st.Evolves V P A A' st') :
    Settles settings V P A st fs d ⟨.value v, fs, st', d, w⟩ :=
  ⟨0, v, A', st', w, rfl, h⟩

theorem Settles.of_step (h : Settles settings V P A st fs d (m.step Console.host settings)) :
    Settles settings V P A st fs d m := by
  obtain ⟨n, v, A', st', w, hrun, he⟩ := h
  refine ⟨n + 1, v, A', st', w, ?_, he⟩
  rw [run_eq_iterate, Function.iterate_succ_apply, ← run_eq_iterate, hrun]

/-- What was done before counts too. -/
theorem Settles.since (h : Settles settings V Q A' st' fs d m) (he : st.Evolves V P A A' st')
    (hQ : ∀ s n, s.index < st.scopes.size → Q s n → P s n) :
    Settles settings V P A st fs d m := by
  obtain ⟨n, v, A'', st'', w, hrun, he'⟩ := h
  exact ⟨n, v, A'', st'', w, hrun, he.trans he' hQ⟩

/-- Hands the value to the topmost frame.  A signal leaves it. -/
theorem Settles.through (h : Settles settings V Q A st (f :: fs) d m) (hf : f.isCall = false)
    (hQ : ∀ s n, Q s n → P s n)
    (hresume : ∀ v A' st' w, st.Evolves V Q A A' st' →
      Settles settings V P A' st' fs d
        (resume Console.host settings ⟨.value v, fs, st', d, w⟩ v f)) :
    Settles settings V P A st fs d m := by
  obtain ⟨n, v, A', st', w, hrun, he⟩ := h
  have hlast : Settles settings V P A st fs d ⟨.value v, f :: fs, st', d, w⟩ := by
    apply Settles.of_step
    cases hv : v.isSignal with
    | true =>
      have hstep : step Console.host settings ⟨.value v, f :: fs, st', d, w⟩ =
          unwind ⟨.value v, fs, st', d, w⟩ v f := by
        rw [step]
        exact if_pos hv
      rw [hstep]
      -- a signal passes every frame but that of a call
      cases f with
      | call => cases hf
      | _ => exact settles_value (he.mono hQ)
    | false =>
      have hstep : step Console.host settings ⟨.value v, f :: fs, st', d, w⟩ =
          resume Console.host settings ⟨.value v, fs, st', d, w⟩ v f := by
        rw [step]
        exact if_neg (by rw [hv]; exact Bool.false_ne_true)
      rw [hstep]
      exact (hresume v A' st' w he).since (he.mono hQ) fun _ _ _ => id
  obtain ⟨n', v', A'', st'', w', hrun', he'⟩ := hlast
  exact ⟨n + n', v', A'', st'', w', by rw [run_add, hrun, hrun'], he'⟩

/-- A function that was called is left with a value. -/
theorem Settles.returns (h : Settles settings V P A st (.call span :: fs) (d + 1) m) :
    Settles settings V P A st fs d m := by
  obtain ⟨n, v, A', st', w, hrun, he⟩ := h
  have hlast : ∃ u, step Console.host settings ⟨.value v, .call span :: fs, st', d + 1, w⟩ =
      ⟨.value u, fs, st', d, w⟩ := by
    rw [step]
    simp only
    split
    · exact ⟨_, rfl⟩
    · exact ⟨_, rfl⟩
  obtain ⟨u, hu⟩ := hlast
  exact ⟨n + 1, u, A', st', w, by rw [run_succ, hrun, hu], he⟩

end Settles

/-! ### Code that finishes -/

/-- Wherever the code is runnable, the machine that runs it settles. -/
def Finishes (settings : Settings) (V : String → Prop) (d : Nat) (c : Env → Control)
    (own : List String) (ds : List Deed) : Prop :=
  ∀ A st env fs w, Runnable V A st env own ds →
    Settles settings V (Touches env own) A st fs d ⟨c env, fs, st, d, w⟩

/-- An expression finishes. -/
abbrev ExprFinishes (settings : Settings) (V : String → Prop) (d : Nat) (e : Expr) : Prop :=
  Finishes settings V d (.expr e) [] e.deeds

/-- Statements of a block finish. -/
abbrev BlockFinishes (settings : Settings) (V : String → Prop) (d : Nat) (ss : List Stmt) : Prop :=
  ∀ span, Finishes settings V d (.statements ss span) (Stmt.ownAll ss) (Stmt.innerAll ss)

/-- A list of expressions finishes, whatever its values are for. -/
def ListFinishes (settings : Settings) (V : String → Prop) (d : Nat) (es : List Expr) : Prop :=
  ∀ purpose done A st env fs c w, Runnable V A st env [] (Expr.deedsAll es) →
    Settles settings V (Touches env []) A st fs d
      (collect Console.host settings ⟨c, fs, st, d, w⟩ purpose done es env)

/-- A value can be stored in a target. -/
def StoreFinishes (settings : Settings) (V : String → Prop) (d : Nat) (target : Expr) : Prop :=
  ∀ value span A st env fs c w, Runnable V A st env [] (target.written ++ target.deeds) →
    Settles settings V (Touches env []) A st fs d
      (beginStore ⟨c, fs, st, d, w⟩ target value env span)

/-- What every function does, if one more may be active. -/
def Deep (settings : Settings) (V : String → Prop) (d : Nat) : Prop :=
  d < settings.maxDepth → ∀ ss, BlockFinishes settings V (d + 1) ss

section Finishes

variable {settings : Settings} {V : String → Prop} {P A A' : Chart} {st st' : Store}
  {env : Env} {own : List String} {ds : List Deed} {fs : List Frame} {f : Frame} {d : Nat}
  {c : Control} {w : Console}

/-- Evaluates an expression and leaves the rest to a frame. -/
theorem ExprFinishes.push (hfinishes : ExprFinishes settings V d e) (h : Runnable V A st env own ds)
    (hds : e.deeds.Sublist ds) (hf : f.isCall = false)
    (hresume : ∀ v A' st' w, Runnable V A' st' env own ds →
      Settles settings V P A' st' fs d
        (resume Console.host settings ⟨.value v, fs, st', d, w⟩ v f)) :
    Settles settings V P A st fs d (push ⟨c, fs, st, d, w⟩ f (.expr e env)) := by
  have hfirst := hfinishes A st env (f :: fs) w (h.part (List.nil_sublist own) hds)
  refine hfirst.through hf (fun _ _ ht => absurd ht not_touches_nil) fun v A' st' w he => ?_
  exact hresume v A' st' w (h.afterExpr he)

/-- Runs a block and leaves the rest to a frame. -/
theorem BlockFinishes.push {b : Block} (hfinishes : BlockFinishes settings V d b.statements)
    (h : Runnable V A st env own ds) (hds : b.deeds.Sublist ds) (hf : f.isCall = false)
    (hresume : ∀ v A' st' w, st.Evolves V (Touches env []) A A' st' →
      Settles settings V P A' st' fs d
        (resume Console.host settings ⟨.value v, fs, st', d, w⟩ v f)) :
    Settles settings V P A st fs d (pushBlock ⟨c, fs, st, d, w⟩ f b env) := by
  obtain ⟨statements, blockSpan⟩ := b
  have hblock := h.part (List.nil_sublist own) hds
  have henter := runnable_push hblock.tame hblock.charted hblock.avoids
  have hinner := hfinishes blockSpan _ _ _ (f :: fs) w henter
  -- the counters of the block belong to the new scope
  have hsince : Settles settings V (Touches env []) A st (f :: fs) d
      (pushBlock ⟨c, fs, st, d, w⟩ f ⟨statements, blockSpan⟩ env) := by
    refine hinner.since (h.charted.evolves_push _) fun s n hlt ht => ?_
    rw [ht.1] at hlt
    exact absurd hlt (Nat.lt_irrefl _)
  exact hsince.through hf (fun _ _ ht => absurd ht not_touches_nil) hresume

/-! ### Expressions -/

theorem settles_give (h : st.Charted V A) (v : Value) :
    Settles settings V P A st fs d (give ⟨c, fs, st, d, w⟩ v) :=
  settles_value h.evolves_refl

theorem settles_blame (h : st.Charted V A) (fault : Fault) (span : Span) :
    Settles settings V P A st fs d (blame ⟨c, fs, st, d, w⟩ fault span) :=
  settles_give h _

/-- A call settles: the body runs in a scope of its own, with one more active
function. -/
theorem settles_apply (hdeep : Deep settings V d) (h : st.Charted V A) (callee : Value)
    (arguments : List Value) (span : Span) :
    Settles settings V P A st fs d
      (apply settings ⟨c, fs, st, d, w⟩ callee arguments span) := by
  cases callee with
  | function ref place =>
    by_cases harity : arguments.length = (st.closure ref).literal.params.length
    · by_cases hdepth : d < settings.maxDepth
      · rw [apply_eq harity hdepth]
        have htame := h.tame ref
        have havoids := h.avoids ref
        generalize st.closure ref = closure at htame havoids ⊢
        obtain ⟨name, ⟨params, ⟨statements, blockSpan⟩, literalSpan⟩, env⟩ := closure
        have hbody : (Stmt.deedsAll statements).Sublist
            (FunctionLit.mk params ⟨statements, blockSpan⟩ literalSpan).deeds :=
          List.sublist_append_right _ _
        have henter := h.evolves_push (P := P) (Stmt.ownAll statements)
        have hparams : ∀ p ∈ params, ¬ V p.name := fun p hp =>
          htame.others _ (List.mem_append_left _ (List.mem_map_of_mem hp))
        have hbind := Store.evolves_bindParams (P := fun _ _ => False) (st.enter env).1 params
          arguments _ henter.charted hparams
        have hrunnable := (runnable_push (htame.sublist hbody) h
          (havoids.mono (hbody.filterMap _).subset)).after hbind fun _ _ => id
        have hinner := hdeep hdepth statements blockSpan _ _ _ (.call span :: fs) w hrunnable
        refine hinner.returns.since (henter.trans hbind fun _ _ _ => False.elim) ?_
        -- the counters of the body belong to the new scope
        intro s n hlt ht
        rw [ht.1] at hlt
        exact absurd hlt (Nat.lt_irrefl _)
      · rw [apply, if_neg (not_not_intro harity), if_pos (Nat.le_of_not_lt hdepth)]
        exact settles_blame h _ _
    · rw [apply, if_pos harity]
      exact settles_blame h _ _
  | _ => exact settles_blame h _ _

/-- The console comes to a value. -/
theorem settles_applyBuiltin (h : st.Charted V A) (function : Builtin) (arguments : List Value)
    (span : Span) :
    Settles settings V P A st fs d
      (applyBuiltin Console.host ⟨c, fs, st, d, w⟩ function arguments span) := by
  rw [applyBuiltin]
  simp only
  split
  · rename_i hreturned
    exact absurd hreturned.2 (Console.builtin_kind _ _ _ _ _ hreturned.1)
  · exact settles_value h.evolves_refl

theorem settles_deliver (hdeep : Deep settings V d) (h : st.Charted V A) (purpose : Purpose)
    (values : List Value) :
    Settles settings V P A st fs d
      (deliver Console.host settings ⟨c, fs, st, d, w⟩ purpose values) := by
  cases purpose with
  | array span => exact settles_value (h.evolves_of_eq rfl rfl)
  | call callee span => exact settles_apply hdeep h callee values span
  | builtin function span => exact settles_applyBuiltin h function values span

theorem listFinishes_nil (hdeep : Deep settings V d) : ListFinishes settings V d [] := by
  intro purpose done A st env fs c w h
  exact settles_deliver hdeep h.charted purpose done.reverse

theorem listFinishes_cons {es : List Expr} (he : ExprFinishes settings V d e)
    (hes : ListFinishes settings V d es) : ListFinishes settings V d (e :: es) := by
  intro purpose done A st env fs c w h
  refine he.push h (List.sublist_append_left _ _) rfl fun v A' st' w h' => ?_
  exact hes purpose (v :: done) A' st' env fs _ w
    (h'.part (List.Sublist.refl _) (List.sublist_append_right _ _))

theorem exprFinishes_ident (id : Ident) : ExprFinishes settings V d (.ident id) := by
  intro A st env fs w h
  apply Settles.of_step
  simp only [step, beginExpr]
  split
  · exact settles_give h.charted _
  · exact settles_blame h.charted _ _

theorem exprFinishes_array {elements : List Expr} (hes : ListFinishes settings V d elements) :
    ExprFinishes settings V d (.array elements span) := by
  intro A st env fs w h
  exact Settles.of_step (hes (.array span) [] A st env fs _ w h)

theorem exprFinishes_builtin {function : Builtin} {arguments : List Expr}
    (hes : ListFinishes settings V d arguments) :
    ExprFinishes settings V d (.builtin function arguments span) := by
  intro A st env fs w h
  exact Settles.of_step (hes (.builtin function span) [] A st env fs _ w h)

theorem exprFinishes_prefixOp {op : Token} {operand : Expr}
    (he : ExprFinishes settings V d operand) :
    ExprFinishes settings V d (.prefixOp op operand span) := by
  intro A st env fs w h
  refine Settles.of_step (he.push h (List.Sublist.refl _) rfl fun v A' st' w h' => ?_)
  exact settles_give h'.charted _

theorem exprFinishes_infixOp {op : Token} {left right : Expr}
    (hleft : ExprFinishes settings V d left) (hright : ExprFinishes settings V d right) :
    ExprFinishes settings V d (.infixOp op left right span) := by
  intro A st env fs w h
  refine Settles.of_step (hleft.push h (List.sublist_append_left _ _) rfl
    fun v A' st' w h' => ?_)
  rw [resume]
  split
  · exact settles_give h'.charted _
  · refine hright.push h' (List.sublist_append_right _ _) rfl fun v A' st' w h' => ?_
    exact settles_give h'.charted _

theorem exprFinishes_index (hcontainer : ExprFinishes settings V d container)
    (hposition : ExprFinishes settings V d position) :
    ExprFinishes settings V d (.index container position span) := by
  intro A st env fs w h
  refine Settles.of_step (hcontainer.push h (List.sublist_append_left _ _) rfl
    fun v A' st' w h' => ?_)
  refine hposition.push h' (List.sublist_append_right _ _) rfl fun v A' st' w h' => ?_
  exact settles_give h'.charted _

theorem exprFinishes_call {callee : Expr} {arguments : List Expr}
    (hcallee : ExprFinishes settings V d callee) (hes : ListFinishes settings V d arguments) :
    ExprFinishes settings V d (.call callee arguments span) := by
  intro A st env fs w h
  refine Settles.of_step (hcallee.push h (List.sublist_append_left _ _) rfl
    fun v A' st' w h' => ?_)
  exact hes (.call v span) [] A' st' env fs _ w
    (h'.part (List.Sublist.refl _) (List.sublist_append_right _ _))

theorem exprFinishes_function (literal : FunctionLit) :
    ExprFinishes settings V d (.function literal) := by
  intro A st env fs w h
  exact Settles.of_step (settles_value (h.charted.evolves_newClosure h.tame h.avoids))

theorem exprFinishes_nested {inner : Expr} (he : ExprFinishes settings V d inner) :
    ExprFinishes settings V d (.nested inner span) := by
  intro A st env fs w h
  exact Settles.of_step (he A st env fs w h)

/-! ### Storing -/

theorem storeFinishes_ident (id : Ident) : StoreFinishes settings V d (.ident id) := by
  intro value span A st env fs c w h
  rw [beginStore, Store.assign_eq_owner?]
  exact settles_value (h.charted.evolves_write value (h.tame.others _ List.mem_cons_self))

theorem settles_storeElement (h : st.Charted V A) (origin : Origin)
    (container position value : Value) (slot span : Span) :
    Settles settings V P A st fs d
      (storeElement ⟨c, fs, st, d, w⟩ origin container position value slot span) := by
  rw [storeElement]
  split
  · exact settles_blame h _ _
  · split
    · exact settles_blame h _ _
    · exact settles_value (h.evolves_of_eq rfl rfl)

theorem storeFinishes_index {slot : Span} (hcontainer : ExprFinishes settings V d container)
    (hposition : ExprFinishes settings V d position) :
    StoreFinishes settings V d (.index container position slot) := by
  intro value span A st env fs c w h
  refine hcontainer.push h (List.sublist_append_left _ _) rfl fun v A' st' w h' => ?_
  refine hposition.push h' (List.sublist_append_right _ _) rfl fun v A' st' w h' => ?_
  exact settles_storeElement h'.charted _ _ _ _ _ _

/-! ### Statements -/

/-- A statement finishes. -/
abbrev StmtFinishes (settings : Settings) (V : String → Prop) (d : Nat) (s : Stmt) : Prop :=
  Finishes settings V d (.stmt s) s.own s.inner

/-- A conditional finishes. -/
abbrev CondFinishes (settings : Settings) (V : String → Prop) (d : Nat) (c : Conditional) : Prop :=
  Finishes settings V d (.conditional c) [] c.deeds

/-- The rest of a conditional finishes. -/
def ElseFinishes (settings : Settings) (V : String → Prop) (d : Nat) : ElseBranch → Prop
  | .missing => True
  | .elseIf c => CondFinishes settings V d c
  | .otherwise b => BlockFinishes settings V d b.statements

/-- Runs a statement and leaves those after it to a frame. -/
theorem StmtFinishes.push {s : Stmt} {ss : List Stmt} (hs : StmtFinishes settings V d s)
    (h : Runnable V A st env (Stmt.ownAll (s :: ss)) (Stmt.innerAll (s :: ss)))
    (hf : f.isCall = false)
    (hresume : ∀ v A' st' w, Runnable V A' st' env (Stmt.ownAll ss) (Stmt.innerAll ss) →
      Settles settings V (Touches env (Stmt.ownAll ss)) A' st' fs d
        (resume Console.host settings ⟨.value v, fs, st', d, w⟩ v f)) :
    Settles settings V (Touches env (Stmt.ownAll (s :: ss))) A st fs d
      (push ⟨c, fs, st, d, w⟩ f (.stmt s env)) := by
  have hown : Stmt.ownAll (s :: ss) = s.own ++ Stmt.ownAll ss := List.flatMap_cons
  have hinner : Stmt.innerAll (s :: ss) = s.inner ++ Stmt.innerAll ss := List.flatMap_cons
  rw [hown, hinner] at h
  rw [hown]
  have hfirst := hs A st env (f :: fs) w
    (h.part (List.sublist_append_left _ _) (List.sublist_append_left _ _))
  refine hfirst.through hf (fun _ _ ht => ⟨ht.1, List.mem_append_left _ ht.2⟩)
    fun v A' st' w he => ?_
  -- no counter is that of two statements
  have hrest : Runnable V A' st' env (Stmt.ownAll ss) (Stmt.innerAll ss) :=
    (h.part (List.sublist_append_right _ _) (List.sublist_append_right _ _)).after he
      fun n hn ht => (List.nodup_append'.1 h.once).2.2 ht.2 hn
  exact (hresume v A' st' w hrest).since hrest.charted.evolves_refl
    fun _ _ _ ht => ⟨ht.1, List.mem_append_right _ ht.2⟩

theorem blockFinishes_nil : BlockFinishes settings V d [] := by
  intro span A st env fs w h
  exact Settles.of_step (settles_give h.charted _)

theorem blockFinishes_cons {s : Stmt} {ss : List Stmt} (hs : StmtFinishes settings V d s)
    (hss : BlockFinishes settings V d ss) : BlockFinishes settings V d (s :: ss) := by
  intro span A st env fs w h
  refine Settles.of_step (hs.push h rfl fun v A' st' w h' => ?_)
  exact hss span A' st' env fs w h'

theorem stmtFinishes_expr (he : ExprFinishes settings V d e) :
    StmtFinishes settings V d (.expr e) := by
  intro A st env fs w h
  exact Settles.of_step (he A st env fs w h)

theorem stmtFinishes_assign (htarget : StoreFinishes settings V d target)
    (hvalue : ExprFinishes settings V d value) :
    StmtFinishes settings V d (.assign target value span) := by
  intro A st env fs w h
  have hds : value.deeds.Sublist (target.written ++ (target.deeds ++ value.deeds)) :=
    (List.sublist_append_right _ _).trans (List.sublist_append_right _ _)
  refine Settles.of_step (hvalue.push h hds rfl fun v A' st' w h' => ?_)
  exact htarget v span A' st' env fs _ w
    (h'.part (List.Sublist.refl _) ((List.sublist_append_left _ _).append_left _))

theorem stmtFinishes_change {amount : Expr} {direction : Direction}
    (htarget : ExprFinishes settings V d target) (hstore : StoreFinishes settings V d target)
    (hamount : ExprFinishes settings V d amount) :
    StmtFinishes settings V d (.change target amount direction span) := by
  intro A st env fs w h
  have hds : (target.deeds ++ amount.deeds).Sublist
      (target.written ++ (target.deeds ++ amount.deeds)) := List.sublist_append_right _ _
  refine Settles.of_step (htarget.push h ((List.sublist_append_left _ _).trans hds) rfl
    fun v A' st' w h' => ?_)
  refine hamount.push h' ((List.sublist_append_right _ _).trans hds) rfl
    fun u A' st' w h' => ?_
  rw [resume]
  simp only
  split
  · exact settles_give h'.charted _
  · exact hstore _ span A' st' env fs _ w
      (h'.part (List.Sublist.refl _) ((List.sublist_append_left _ _).append_left _))

theorem stmtFinishes_define (name : Ident) (function : FunctionLit) (span : Span) :
    StmtFinishes settings V d (.define name function span) := by
  intro A st env fs w h
  have hds : function.deeds.Sublist (.writes name.name :: function.deeds) :=
    List.sublist_cons_self _ _
  have hfunction := h.part (List.Sublist.refl _) hds
  have hmake := h.charted.evolves_newClosure (P := Touches env [])
    (c := ⟨some name.name, function, env⟩) hfunction.tame hfunction.avoids
  have hname : ¬ V name.name := h.tame.others _ List.mem_cons_self
  exact Settles.of_step (settles_value
    (hmake.trans (hmake.charted.evolves_write _ hname) fun _ _ _ => id))

theorem stmtFinishes_giveBack (he : ExprFinishes settings V d value) :
    StmtFinishes settings V d (.giveBack value span) := by
  intro A st env fs w h
  refine Settles.of_step (he.push h (List.Sublist.refl _) rfl fun v A' st' w h' => ?_)
  exact settles_give h'.charted _

/-- There are no loops that test a condition. -/
theorem stmtFinishes_of_repeats {s : Stmt} (h : .repeats ∈ s.inner) :
    StmtFinishes settings V d s :=
  fun _ _ _ _ _ hrunnable => absurd h hrunnable.tame.onlyCounts

theorem stmtFinishes_conditional {c : Conditional} (hc : CondFinishes settings V d c) :
    StmtFinishes settings V d (.conditional c) := by
  intro A st env fs w h
  exact Settles.of_step (hc A st env fs w h)

theorem condFinishes_mk {condition : Expr} {consequence : Block} {alternative : ElseBranch}
    (hcondition : ExprFinishes settings V d condition)
    (hconsequence : BlockFinishes settings V d consequence.statements)
    (halternative : ElseFinishes settings V d alternative) :
    CondFinishes settings V d ⟨condition, consequence, alternative, span⟩ := by
  intro A st env fs w h
  have hds : (consequence.deeds ++ alternative.deeds).Sublist
      (condition.deeds ++ (consequence.deeds ++ alternative.deeds)) :=
    List.sublist_append_right _ _
  refine Settles.of_step (hcondition.push h (List.sublist_append_left _ _) rfl
    fun v A' st' w h' => ?_)
  rw [resume, choose.eq_def]
  simp only
  split
  · refine hconsequence.push h' ((List.sublist_append_left _ _).trans hds) rfl
      fun v A' st' w he => settles_give he.charted _
  · have hbranch := h'.part (List.Sublist.refl _) ((List.sublist_append_right _ _).trans hds)
    cases alternative with
    | missing => exact settles_give h'.charted _
    | elseIf c =>
      have helse := halternative A' st' env (.settle span :: fs) w hbranch
      exact helse.through rfl (fun _ _ => id) fun v A' st' w he => settles_give he.charted _
    | otherwise b =>
      exact BlockFinishes.push halternative hbranch (List.Sublist.refl _) rfl
        fun v A' st' w he => settles_give he.charted _
  · exact settles_blame h'.charted _ _

/-! ### Loops -/

/-- A loop that is running settles. -/
theorem settles_count {loop : Counting} (hbody : BlockFinishes settings V d loop.body.statements)
    (hstep : 0 < loop.step) {current : Int} (h : loop.Running V A st current) :
    Settles settings V (Touches loop.env [loop.counter.name]) A st fs d
      ⟨.count loop, fs, st, d, w⟩ := by
  induction hk : loop.remaining current using Nat.strong_induction_on
    generalizing A st current w with
  | h k ih =>
    obtain ⟨span, hvalue⟩ := h.get?_eq
    apply Settles.of_step
    simp only [step, count, hvalue]
    cases hin : loop.inRange current with
    | false => exact settles_give h.body.charted _
    | true =>
      refine hbody.push h.body (List.Sublist.refl _) rfl fun v A' st' w he => ?_
      -- the body has left the variable alone
      have h' := h.after he
      obtain ⟨span', hvalue'⟩ := h'.get?_eq
      rw [resume, countOn]
      simp only [counterAfter, hvalue']
      cases hafter : loop.after? current with
      | none => exact settles_give h'.body.charted _
      | some next =>
        have hnext := Counting.running_assign loop h'.body h'.owns next loop.counter.span
        have hfurther := ih _ (hk ▸ Counting.remaining_after hstep hin hafter) hnext rfl (w := w)
        exact hfurther.since (h'.owns.evolves_assign h'.body.charted _) fun _ _ _ => id

theorem settles_beginCount {counter : Ident} {body : Block}
    (hbody : BlockFinishes settings V d body.statements)
    (h : Runnable V A st env [counter.name] ds) (hds : body.deeds.Sublist ds)
    (first last step : Value) (stepSpan : Span) (direction : Direction) (span : Span) :
    Settles settings V (Touches env [counter.name]) A st fs d
      (beginCount ⟨c, fs, st, d, w⟩ counter first last step stepSpan direction body span env) := by
  have howns := h.owns _ List.mem_cons_self
  rw [beginCount.eq_def]
  split
  · rename_i first firstSpan last lastSpan step stepSpan
    split
    · exact settles_blame h.charted _ _
    · rename_i hstep
      have hrunning : (Counting.mk counter last step direction body span env).Running V A
          (st.assign env counter.name (.int first firstSpan)) first :=
        Counting.running_assign ⟨counter, last, step, direction, body, span, env⟩
          (h.part (List.nil_sublist _) hds) howns first firstSpan
      exact (settles_count hbody (not_le.1 hstep) hrunning).since
        (howns.evolves_assign h.charted _) fun _ _ _ => id
  · exact settles_blame h.charted _ _

theorem stmtFinishes_counted {counter : Ident} {first last step : Expr} {direction : Direction}
    {body : Block} (hfirst : ExprFinishes settings V d first)
    (hlast : ExprFinishes settings V d last) (hstep : ExprFinishes settings V d step)
    (hbody : BlockFinishes settings V d body.statements) :
    StmtFinishes settings V d (.counted counter first last step direction body span) := by
  intro A st env fs w h
  have hbounds : (step.deeds ++ body.deeds).Sublist
      (first.deeds ++ (last.deeds ++ (step.deeds ++ body.deeds))) :=
    (List.sublist_append_right _ _).trans (List.sublist_append_right _ _)
  refine Settles.of_step (hfirst.push h (List.sublist_append_left _ _) rfl
    fun u A' st' w h' => ?_)
  refine hlast.push h' ((List.sublist_append_left _ _).trans (List.sublist_append_right _ _)) rfl
    fun v A' st' w h' => ?_
  refine hstep.push h' ((List.sublist_append_left _ _).trans hbounds) rfl
    fun x A' st' w h' => ?_
  exact settles_beginCount hbody h' ((List.sublist_append_right _ _).trans hbounds) u v x _ _ _

/-! ### All code -/

mutual

/-- Every expression finishes, if functions that are called do. -/
theorem exprFinishes (hdeep : Deep settings V d) : ∀ e : Expr, ExprFinishes settings V d e
  | .ident id => exprFinishes_ident id
  | .int _ _ | .str _ _ | .absent _ =>
    fun _ _ _ _ _ h => Settles.of_step (settles_give h.charted _)
  | .array elements _ => exprFinishes_array (listFinishes hdeep elements)
  | .prefixOp _ operand _ => exprFinishes_prefixOp (exprFinishes hdeep operand)
  | .infixOp _ left right _ =>
    exprFinishes_infixOp (exprFinishes hdeep left) (exprFinishes hdeep right)
  | .index container position _ =>
    exprFinishes_index (exprFinishes hdeep container) (exprFinishes hdeep position)
  | .call callee arguments _ =>
    exprFinishes_call (exprFinishes hdeep callee) (listFinishes hdeep arguments)
  | .builtin _ arguments _ => exprFinishes_builtin (listFinishes hdeep arguments)
  | .function literal => exprFinishes_function literal
  | .command _ _ => fun _ _ _ _ _ h => Settles.of_step (settles_value h.charted.evolves_refl)
  | .nested inner _ => exprFinishes_nested (exprFinishes hdeep inner)

theorem listFinishes (hdeep : Deep settings V d) : ∀ es : List Expr, ListFinishes settings V d es
  | [] => listFinishes_nil hdeep
  | e :: es => listFinishes_cons (exprFinishes hdeep e) (listFinishes hdeep es)

end

theorem storeFinishes (hdeep : Deep settings V d) (target : Expr) :
    StoreFinishes settings V d target := by
  cases target with
  | ident id => exact storeFinishes_ident id
  | index container position slot =>
    exact storeFinishes_index (exprFinishes hdeep container) (exprFinishes hdeep position)
  | _ => exact fun _ _ _ _ _ _ _ _ h => settles_blame h.charted _ _

mutual

/-- So does every statement. -/
theorem stmtFinishes (hdeep : Deep settings V d) : ∀ s : Stmt, StmtFinishes settings V d s
  | .expr e => stmtFinishes_expr (exprFinishes hdeep e)
  | .assign target value _ =>
    stmtFinishes_assign (storeFinishes hdeep target) (exprFinishes hdeep value)
  | .conditional c => stmtFinishes_conditional (condFinishes hdeep c)
  | .counted _ first last step _ ⟨statements, _⟩ _ =>
    stmtFinishes_counted (exprFinishes hdeep first) (exprFinishes hdeep last)
      (exprFinishes hdeep step) (blockFinishes hdeep statements)
  | .whileLoop _ _ _ | .untilLoop _ _ _ => stmtFinishes_of_repeats List.mem_cons_self
  | .change target amount _ _ =>
    stmtFinishes_change (exprFinishes hdeep target) (storeFinishes hdeep target)
      (exprFinishes hdeep amount)
  | .define name function span => stmtFinishes_define name function span
  | .giveBack value _ => stmtFinishes_giveBack (exprFinishes hdeep value)

theorem blockFinishes (hdeep : Deep settings V d) : ∀ ss : List Stmt, BlockFinishes settings V d ss
  | [] => blockFinishes_nil
  | s :: ss => blockFinishes_cons (stmtFinishes hdeep s) (blockFinishes hdeep ss)

theorem condFinishes (hdeep : Deep settings V d) : ∀ c : Conditional, CondFinishes settings V d c
  | ⟨condition, ⟨statements, _⟩, alternative, _⟩ =>
    condFinishes_mk (exprFinishes hdeep condition) (blockFinishes hdeep statements)
      (elseFinishes hdeep alternative)

theorem elseFinishes (hdeep : Deep settings V d) : ∀ b : ElseBranch, ElseFinishes settings V d b
  | .missing => trivial
  | .elseIf c => condFinishes hdeep c
  | .otherwise ⟨statements, _⟩ => blockFinishes hdeep statements

end

/-- Functions finish, however many are active: with each, fewer may follow. -/
theorem deep (settings : Settings) (V : String → Prop) (d : Nat) : Deep settings V d := by
  induction hk : settings.maxDepth - d generalizing d with
  | zero => exact fun hlt => absurd hk (Nat.sub_ne_zero_of_lt hlt)
  | succ k ih => exact fun _ => blockFinishes (ih (d + 1) (by omega))

/-! ### Programs -/

/-- The statements of a program finish. -/
theorem settles_program (ss : List Stmt)
    (h : Runnable V A st env (Stmt.ownAll ss) (Stmt.innerAll ss)) (v : Value) :
    Settles settings V (Touches env (Stmt.ownAll ss)) A st fs d
      (resume Console.host settings ⟨c, fs, st, d, w⟩ v (.program ss env)) := by
  induction ss generalizing A st c w v with
  | nil => exact settles_give h.charted v
  | cons s ss ih =>
    exact (stmtFinishes (deep settings V d) s).push h rfl fun v A' st' w h' => ih h' v

end Finishes

/-- Where nothing has run, the counters of a program belong to the outermost
scope. -/
theorem runnable_new {V : String → Prop} {ss : List Stmt} (htame : Tame V (Stmt.deedsAll ss))
    (world : Console) :
    ∃ A, Runnable V A (Session.new world).store (Session.new world).env (Stmt.ownAll ss)
      (Stmt.innerAll ss) := by
  have hempty : Store.empty.Charted V fun _ _ => False :=
    { bound := fun s n _ hbinds => by
        rw [Store.binds_of_size_le (Nat.zero_le _)] at hbinds
        cases hbinds
      here := fun _ _ => False.elim
      tame := fun _ => tame_nil
      avoids := fun _ _ hn => absurd hn List.not_mem_nil }
  exact ⟨_, runnable_push htame hempty (by nofun)⟩

/-- A program whose loops all count, and whose counters are written nowhere
else, comes to a value. -/
theorem counting_programs_end (p : Program) (hcounts : p.OnlyCounts) (howns : p.OwnsCounters)
    (settings : Settings) (world : Console) :
    ∃ n v, (Session.run Console.host settings n (Session.new world) p).1 = some (.ok v) := by
  have htame := p.tame hcounts howns
  obtain ⟨statements, span⟩ := p
  obtain ⟨A, hrunnable⟩ := runnable_new htame world
  cases statements with
  | nil => exact ⟨0, .null span, rfl⟩
  | cons first rest =>
    have hsettles : Settles settings _ _ A _ [] 0
        (load (Session.new world) ⟨first :: rest, span⟩) :=
      settles_program (c := .value default) (first :: rest) hrunnable default
    obtain ⟨n, v, A', st', w, hrun, -⟩ := hsettles
    refine ⟨n, v.unwrap, ?_⟩
    rw [Session.run, hrun]
    rfl

/-- A function that calls itself in a loop, as often as its argument says, and
is then called with a function. -/
def callsItselfInLoop : Program :=
  let name (s : String) : Ident := ⟨s, default⟩
  let less : Expr := .infixOp (.symbol .minus) (.ident (name "n")) (.int 1 default) default
  let again : Stmt := .expr (.call (.ident (name "f")) [less] default)
  let loop : Stmt := .counted (name "i") (.int 1 default) (.ident (name "n")) (.int 1 default)
    .increasing ⟨[again], default⟩ default
  let call (e : Expr) : Stmt := .expr (.call (.ident (name "f")) [e] default)
  ⟨[.define (name "f") ⟨[name "n"], ⟨[loop], default⟩, default⟩ default,
    call (.int 3 default),
    call (.ident (name "f"))], default⟩

theorem counting_programs_end_recursion :
    callsItselfInLoop.OnlyCounts ∧ callsItselfInLoop.OwnsCounters ∧
      ∃ n v, (Session.run Console.host {} n (Session.new {}) callsItselfInLoop).1 =
        some (.ok v) :=
  have hcounts : callsItselfInLoop.OnlyCounts := by decide
  have howns : callsItselfInLoop.OwnsCounters := by decide
  ⟨hcounts, howns, counting_programs_end callsItselfInLoop hcounts howns {} {}⟩

end Machine

end Dncl
