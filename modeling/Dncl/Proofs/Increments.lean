/-
Dncl/Proofs/Increments.lean

Increments read their target, and then store in it.

    target を amount 増やす

evaluates the target, then the amount, and stores the sum in the target.  For the
store, the parts of an element `x[y]` are evaluated once more.  So the slot that is
written is the one that was read if the second evaluation starts from the state of
the first, as it does where no part has an effect; it may be another one if, say,
`y` takes a line of input.

Design.  `Changes` says what the sum or the difference is, `Reaches` which slot
`x[y]` stands for.  An increment of an element is then a chain

    s  --x[y]-->  s₁  --amount-->  s₂  --x[y]-->  s₃  --store-->  s'

An expression is *steady* (`Expr.Steady`) if nothing in it can have an effect.
-/
import Dncl.Proofs.Elements
import Dncl.Proofs.Operators

namespace Dncl

variable {amount x y : Expr} {v w : Value} {slot span : Span} {st : Store}

/-! ### Sums and differences -/

/-- The value `v` is that of `l` plus `r`, or minus `r`: integers are added and
subtracted exactly, and texts are joined. -/
inductive Changes (span : Span) : Direction → Value → Value → Value → Prop
  | sum {a b : Int} {s t : Span} : Text.Fits (a + b) →
      Changes span .increasing (.int a s) (.int b t) (.int (a + b) span)
  | difference {a b : Int} {s t : Span} : Text.Fits (a - b) →
      Changes span .decreasing (.int a s) (.int b t) (.int (a - b) span)
  | joined {l r : Value} {a b : String} : l.written? = some a → r.written? = some b →
      l.kind = .str ∨ r.kind = .str → Changes span .increasing l r (.str (a ++ b) span)

section Changes

variable {span : Span} {direction : Direction} {l r v : Value}

theorem Changes.applyInfix_eq (h : Changes span direction l r v) (st : Store) :
    applyInfix st (Machine.changeOp direction) l r span = v := by
  cases h with
  | sum hfits => exact exactly_of_fits hfits span
  | difference hfits => exact exactly_of_fits hfits span
  | joined hl hr hstr => exact applyInfix_written hl hr hstr st span

theorem changes_of_exactly {n : Int} (h : (exactly n span).isSignal = false)
    (hn : Text.Fits n → Changes span direction l r (.int n span)) :
    Changes span direction l r (exactly n span) := by
  by_cases hfits : Text.Fits n
  · rw [exactly_of_fits hfits]
    exact hn hfits
  · rw [exactly_of_not_fits hfits] at h
    cases h

/-- Where the operator comes to no signal, it is a sum or a difference. -/
theorem changes_of_isSignal
    (h : (applyInfix st (Machine.changeOp direction) l r span).isSignal = false) :
    Changes span direction l r (applyInfix st (Machine.changeOp direction) l r span) := by
  have happlies : (Machine.changeOp direction).applies l.kind r.kind = true := by
    by_contra hnot
    rw [applyInfix_of_not_applies (Bool.eq_false_iff.2 hnot)] at h
    cases h
  cases direction with
  | increasing =>
    have hjoined : ∀ {a b : String}, l.written? = some a → r.written? = some b →
        l.kind = .str ∨ r.kind = .str →
        Changes span .increasing l r (applyInfix st (.symbol .plus) l r span) := by
      intro a b hl hr hstr
      rw [applyInfix_written hl hr hstr]
      exact .joined hl hr hstr
    cases l with
    | int a s =>
      cases r with
      | int b t => exact changes_of_exactly h .sum
      | str b t => exact hjoined rfl rfl (.inr rfl)
      | _ => cases happlies
    | str a s =>
      cases r with
      | int b t => exact hjoined rfl rfl (.inl rfl)
      | str b t => exact hjoined rfl rfl (.inl rfl)
      | _ => cases happlies
    | _ => cases happlies
  | decreasing =>
    cases l with
    | int a s =>
      cases r with
      | int b t => exact changes_of_exactly h .difference
      | _ => cases happlies
    | _ => cases happlies

theorem Changes.isSignal_eq (h : Changes span direction l r v) : v.isSignal = false := by
  cases h <;> rfl

theorem Changes.isSignal_left (h : Changes span direction l r v) : l.isSignal = false := by
  cases h with
  | sum | difference => rfl
  | joined hl =>
    cases l with
    | int | str => rfl
    | _ => cases hl

/-- A sum or a difference contains no array. -/
theorem Changes.contains_eq (h : Changes span direction l r v) (st : Store) (ref : ArrayRef) :
    st.contains v ref = false := by
  cases h <;> rfl

end Changes

/-! ### Steady expressions -/

/-- Nothing in the expression can have an effect: it makes no array and no function,
and calls none. -/
inductive Expr.Steady : Expr → Prop
  | ident (id : Ident) : Steady (.ident id)
  | int (value : Int) (span : Span) : Steady (.int value span)
  | str (text : String) (span : Span) : Steady (.str text span)
  | absent (span : Span) : Steady (.absent span)
  | prefixOp {op : Token} {operand : Expr} {span : Span} : Steady operand →
      Steady (.prefixOp op operand span)
  | infixOp {op : Token} {left right : Expr} {span : Span} : Steady left → Steady right →
      Steady (.infixOp op left right span)
  | index {container position : Expr} {span : Span} : Steady container → Steady position →
      Steady (.index container position span)
  | nested {inner : Expr} {span : Span} : Steady inner → Steady (.nested inner span)

variable {σ : Type} {host : Host σ} {settings : Settings} {d : Nat} {env : Env} {s s' : State σ}

/-- A phrase that leaves the state as it is, above a frame that does. -/
theorem state_eq_of_frame {c : Control} {f : Frame} (hf : f.isCall = false)
    (hc : ∀ {u s₁}, c.Yields host settings d s u s₁ → s₁ = s)
    (hrest : ∀ {u}, ((s.start (.value u) d).resume host settings u f).Ends host settings d v s' →
      s' = s) (h : ((s.start c d).above [f]).Ends host settings d v s') : s' = s := by
  obtain ⟨u, s₁, hu, hends⟩ := (Machine.ends_frame hf).1 h
  obtain rfl := hc hu
  rcases hends with ⟨-, -, rfl⟩ | ⟨-, hends⟩
  · rfl
  · exact hrest hends

theorem Expr.Steady.state_eq {e : Expr} (he : e.Steady)
    (h : (Control.expr e env).Yields host settings d s v s') : s' = s := by
  induction he generalizing v s' with
  | ident id => exact (yields_ident.1 h).2
  | int | str | absent => exact (Machine.ends_value.1 (Machine.ends_step.2 h)).2
  | @prefixOp op operand span _ ih =>
    exact state_eq_of_frame (f := .prefixOp op span) rfl ih
      (fun hend => (Machine.ends_value.1 hend).2) (Machine.ends_step.2 h)
  | @infixOp op left right span _ _ ihleft ihright =>
    refine state_eq_of_frame (f := .infixLeft op right env span) rfl ihleft ?_
      (Machine.ends_step.2 h)
    intro u hend
    rw [Machine.resume] at hend
    -- the left operand may decide, and then the right one is not evaluated
    split at hend
    · exact (Machine.ends_value.1 hend).2
    · exact state_eq_of_frame (f := .infixRight op u span) rfl ihright
        (fun hend => (Machine.ends_value.1 hend).2) hend
  | @index container position span _ _ ihcontainer ihposition =>
    refine state_eq_of_frame (f := .indexLeft position env span) rfl ihcontainer ?_
      (Machine.ends_step.2 h)
    intro u hend
    exact state_eq_of_frame (f := .indexRight u span) rfl ihposition
      (fun hend => (Machine.ends_value.1 hend).2) hend
  | nested _ ih => exact ih (Machine.ends_step.2 h)

theorem Evaluated.state_eq {es : List Expr} {vs : List Value}
    (h : Evaluated host settings d env es s vs s') (hes : ∀ e ∈ es, e.Steady) : s' = s := by
  induction h with
  | nil s => rfl
  | cons he _ _ ih =>
    obtain ⟨hsteady, hes⟩ := List.forall_mem_cons.1 hes
    obtain rfl := hsteady.state_eq he
    exact ih hes

/-! ### Bindings -/

/-- The states differ in one binding only: the scope `ref` binds `name` to `v` in
`s'`. -/
structure BindingChanged (ref : ScopeRef) (name : String) (v : Value) (s s' : State σ) :
    Prop where
  binding : (s'.store.scope ref).get? name = some v
  bindings : ∀ r n, ¬ (r = ref ∧ n = name) →
    (s'.store.scope r).get? n = (s.store.scope r).get? n
  slots : ∀ r, s'.store.elements r = s.store.elements r
  functions : ∀ r, s'.store.closure r = s.store.closure r
  world : s'.world = s.world

theorem bindingChanged_bind {ref : ScopeRef} (h : ref.index < s.store.scopes.size)
    (name : String) (v : Value) :
    BindingChanged ref name v s ⟨s.store.bind ref name v, s.world⟩ where
  binding := by rw [Store.get?_scope_bind h, if_pos ⟨rfl, rfl⟩]
  bindings r n hne := by rw [Store.get?_scope_bind h, if_neg hne]
  slots _ := rfl
  functions _ := rfl
  world := rfl

theorem Store.get?_eq_some_iff {name : String} :
    st.get? env name = some v ↔
      ∃ ref, st.Innermost name env.chain ref ∧ (st.scope ref).get? name = some v := by
  rw [Store.get?_eq_owner?, Option.bind_eq_some_iff]
  simp only [Store.owner?_eq_some_iff]

/-- The innermost binding of a name stays the innermost one. -/
theorem Store.KeepsNames.innermost {st' : Store} (h : st.KeepsNames st') {name : String}
    {refs : List ScopeRef} (hrefs : ∀ r ∈ refs, r.index < st.scopes.size) {ref : ScopeRef}
    (hname : st.Innermost name refs ref) : st'.Innermost name refs ref := by
  obtain ⟨inner, outer, rfl, hinner, hbinds⟩ := hname
  refine ⟨inner, outer, rfl, fun r hr => ?_, ?_⟩
  · rw [h.names r name (hrefs r (List.mem_append_left _ hr))]
    exact hinner r hr
  · rw [h.names ref name (hrefs ref (List.mem_append_right _ List.mem_cons_self))]
    exact hbinds

/-! ### Elements that are read and written -/

/-- The expression `x[y]` stands for slot `k` of the array `ref`.  Its parts are
evaluated in `s`, each of them once, and this leads to `s'`. -/
def Reaches (host : Host σ) (settings : Settings) (d : Nat) (env : Env) (x y : Expr)
    (s : State σ) (ref : ArrayRef) (k : Nat) (s' : State σ) : Prop :=
  ∃ a i, Evaluated host settings d env [x, y] s [a, i] s' ∧
    Machine.slotOf settings.origin s'.store a i = .ok (ref, k)

theorem Reaches.unique {ref ref' : ArrayRef} {k k' : Nat} {s'' : State σ}
    (h : Reaches host settings d env x y s ref k s')
    (h' : Reaches host settings d env x y s ref' k' s'') : ref = ref' ∧ k = k' ∧ s' = s'' := by
  obtain ⟨a, i, heval, hslot⟩ := h
  obtain ⟨a', i', heval', hslot'⟩ := h'
  obtain ⟨hvalues, rfl⟩ := heval.unique heval'
  cases hvalues
  cases hslot.symm.trans hslot'
  exact ⟨rfl, rfl, rfl⟩

theorem Machine.fetch_eq_iff {origin : Origin} {a i : Value} (hv : v.isSignal = false) :
    fetch origin st a i span = v ↔
      ∃ ref k, slotOf origin st a i = .ok (ref, k) ∧ (st.elements ref)[k]? = some v := by
  constructor
  · intro h
    cases hslot : slotOf origin st a i with
    | error fault =>
      rw [fetch, hslot] at h
      rw [← h, isSignal_valueAt] at hv
      cases hv
    | ok found =>
      obtain ⟨ref, k⟩ := found
      obtain ⟨n, place, place', -, -, hlow, hhigh, hk⟩ := slotOf_eq_ok_iff.1 hslot
      have hread := Array.getElem?_eq_getElem (show k < (st.elements ref).size by omega)
      rw [fetch_of_slotOf hslot hread] at h
      exact ⟨ref, k, rfl, by rw [hread, h]⟩
  · rintro ⟨ref, k, hslot, hread⟩
    exact fetch_of_slotOf hslot hread span

theorem yields_index_iff_reaches (hv : v.isSignal = false) :
    (Control.expr (.index x y slot) env).Yields host settings d s v s' ↔
      ∃ ref k, Reaches host settings d env x y s ref k s' ∧
        (s'.store.elements ref)[k]? = some v := by
  rw [yields_index, operands_iff_evaluated hv]
  constructor
  · rintro ⟨_, s₁, heval, a, i, rfl, hfetch, rfl⟩
    obtain ⟨ref, k, hslot, hread⟩ := (Machine.fetch_eq_iff hv).1 hfetch.symm
    exact ⟨ref, k, ⟨a, i, heval, hslot⟩, hread⟩
  · rintro ⟨ref, k, ⟨a, i, heval, hslot⟩, hread⟩
    exact ⟨_, _, heval, a, i, rfl,
      ((Machine.fetch_eq_iff hv).2 ⟨ref, k, hslot, hread⟩).symm, rfl⟩

/-- A store in an element succeeds exactly if the element is there, for a value that
contains no array. -/
theorem ends_beginStore_iff_reaches {u : Value} (hv : ∀ ref st, Store.contains st v ref = false)
    (hw : w.isSignal = false) :
    ((s.start (.value u) d).beginStore (.index x y slot) v env span).Ends host settings d w s' ↔
      w = .null span ∧ ∃ ref k s₁, Reaches host settings d env x y s ref k s₁ ∧
        s' = ⟨s₁.store.setSlot ref k v, s₁.world⟩ := by
  rw [ends_beginStore_index, operands_iff_evaluated hw]
  constructor
  · rintro ⟨_, s₁, heval, a, i, rfl, hstores⟩
    cases hstores with
    | refused _ =>
      rw [Machine.isSignal_valueAt] at hw
      cases hw
    | stored hslot _ => exact ⟨rfl, _, _, s₁, ⟨a, i, heval, hslot⟩, rfl⟩
  · rintro ⟨rfl, ref, k, s₁, ⟨a, i, heval, hslot⟩, rfl⟩
    exact ⟨_, s₁, heval, a, i, rfl, .stored hslot (hv ref s₁.store)⟩

/-! ### Increments -/

/-- An increment succeeds exactly if its target and its amount have a sum, and this
is stored. -/
theorem yields_change {target : Expr} {direction : Direction} (hw : w.isSignal = false) :
    (Control.stmt (.change target amount direction span) env).Yields host settings d s w s' ↔
      ∃ old a new s₁, Evaluated host settings d env [target, amount] s [old, a] s₁ ∧
        Changes span direction old a new ∧
        ((s₁.start (.value a) d).beginStore target new env span).Ends host settings d w s' := by
  have hoperands : (Control.stmt (.change target amount direction span) env).Yields host settings d
      s w s' ↔ Operands host settings d env [target, amount] s w s' fun vs s₁ =>
        ∃ old a, vs = [old, a] ∧ ((s₁.start (.value a) d).resume host settings a
          (.changeAmount target old direction span env)).Ends host settings d w s' := by
    rw [Control.Yields, ← Machine.ends_step]
    refine ends_operand (f := .changeTarget target amount direction span env) rfl fun old s₁ _ => ?_
    refine ends_operand (f := .changeAmount target old direction span env) rfl fun a s₂ _ => ?_
    rw [operands_nil]
    simp
  rw [hoperands, operands_iff_evaluated hw]
  constructor
  · rintro ⟨_, s₁, heval, old, a, rfl, hends⟩
    rw [Machine.resume] at hends
    split at hends
    · -- a signal of the operator would be the value of the increment
      rename_i hsignal
      obtain ⟨rfl, -⟩ := Machine.ends_value.1 hends
      rw [hw] at hsignal
      cases hsignal
    · rename_i hplain
      exact ⟨old, a, _, s₁, heval, changes_of_isSignal (Bool.eq_false_iff.2 hplain), hends⟩
  · rintro ⟨old, a, new, s₁, heval, hnew, hends⟩
    refine ⟨_, s₁, heval, old, a, rfl, ?_⟩
    rw [Machine.resume]
    simp only [hnew.applyInfix_eq, hnew.isSignal_eq]
    exact hends

/-- An increment of a variable changes the binding that was read: the amount binds
no name in the scopes that were there. -/
theorem yields_change_ident (hhost : host.KeepsNames) {id : Ident} {direction : Direction}
    (hw : w.isSignal = false) (henv : ∀ r ∈ env.chain, r.index < s.store.scopes.size) :
    (Control.stmt (.change (.ident id) amount direction span) env).Yields host settings d s w s' ↔
      w = .null span ∧ ∃ ref old a new s₁, s.store.Innermost id.name env.chain ref ∧
        (s.store.scope ref).get? id.name = some old ∧
        Evaluated host settings d env [amount] s [a] s₁ ∧ Changes span direction old a new ∧
        s' = ⟨s₁.store.bind ref id.name new, s₁.world⟩ := by
  -- the amount makes scopes of its own, so the owner of the name is still the same
  have hassign : ∀ {ref a s₁}, s.store.Innermost id.name env.chain ref →
      Evaluated host settings d env [amount] s [a] s₁ →
      ∀ v, s₁.store.assign env id.name v = s₁.store.bind ref id.name v := by
    intro ref a s₁ hname heval v
    cases heval with
    | cons hamount _ hnil =>
      cases hnil
      have howner := Store.owner?_eq_some_iff.2 ((hamount.keepsNames hhost).innermost henv hname)
      rw [Store.assign_eq_owner?, howner, Option.getD_some]
  rw [yields_change hw]
  constructor
  · rintro ⟨old, a, new, s₁, heval, hnew, hends⟩
    cases heval with
    | cons htarget hold heval =>
      obtain ⟨hget, hstate⟩ := yields_ident.1 htarget
      rw [hstate] at heval
      obtain ⟨rfl, hs'⟩ := Machine.ends_value (t := ⟨s₁.store.assign env id.name new, s₁.world⟩).1
        hends
      cases hvalue : s.store.get? env id.name with
      | none =>
        rw [hget, hvalue, Option.getD_none, Machine.isSignal_valueAt] at hold
        cases hold
      | some value =>
        obtain rfl : old = value := by rw [hget, hvalue, Option.getD_some]
        obtain ⟨ref, hname, hread⟩ := Store.get?_eq_some_iff.1 hvalue
        rw [hassign hname heval] at hs'
        exact ⟨rfl, ref, old, a, new, s₁, hname, hread, heval, hnew, hs'⟩
  · rintro ⟨rfl, ref, old, a, new, s₁, hname, hread, heval, hnew, rfl⟩
    have hget : s.store.get? env id.name = some old := Store.get?_eq_some_iff.2 ⟨ref, hname, hread⟩
    refine ⟨old, a, new, s₁, .cons (yields_ident.2 ⟨?_, rfl⟩) hnew.isSignal_left heval, hnew, ?_⟩
    · rw [hget, Option.getD_some]
    · rw [← hassign hname heval]
      exact Machine.ends_value (t := ⟨s₁.store.assign env id.name new, s₁.world⟩).2 ⟨rfl, rfl⟩

/-- An increment of an element evaluates the parts of its target twice: the first
time for the slot that is read, the second time for the one that is written. -/
theorem yields_change_index {direction : Direction} (hw : w.isSignal = false) :
    (Control.stmt (.change (.index x y slot) amount direction span) env).Yields host settings d s w
      s' ↔
      w = .null span ∧ ∃ ref k old s₁ a new s₂ ref' k' s₃,
        Reaches host settings d env x y s ref k s₁ ∧ (s₁.store.elements ref)[k]? = some old ∧
        Evaluated host settings d env [amount] s₁ [a] s₂ ∧ Changes span direction old a new ∧
        Reaches host settings d env x y s₂ ref' k' s₃ ∧
        s' = ⟨s₃.store.setSlot ref' k' new, s₃.world⟩ := by
  rw [yields_change hw]
  constructor
  · rintro ⟨old, a, new, s₂, heval, hnew, hends⟩
    obtain ⟨rfl, ref', k', s₃, hwritten, rfl⟩ :=
      (ends_beginStore_iff_reaches (fun ref st => hnew.contains_eq st ref) hw).1 hends
    -- the first evaluation of the target is that of the element as an expression
    cases heval with
    | cons htarget hold heval =>
      obtain ⟨ref, k, hread, helement⟩ := (yields_index_iff_reaches hold).1 htarget
      exact ⟨rfl, ref, k, old, _, a, new, s₂, ref', k', s₃, hread, helement, heval, hnew, hwritten,
        rfl⟩
  · rintro ⟨rfl, ref, k, old, s₁, a, new, s₂, ref', k', s₃, hread, helement, heval, hnew, hwritten,
      rfl⟩
    refine ⟨old, a, new, s₂, .cons ?_ hnew.isSignal_left heval, hnew, ?_⟩
    · exact (yields_index_iff_reaches hnew.isSignal_left).2 ⟨ref, k, hread, helement⟩
    · exact (ends_beginStore_iff_reaches (fun ref st => hnew.contains_eq st ref) hw).2
        ⟨rfl, ref', k', s₃, hwritten, rfl⟩

theorem Reaches.slotChanged {ref : ArrayRef} {k : Nat}
    (h : Reaches host settings d env x y s ref k s') (v : Value) :
    SlotChanged ref k v s' ⟨s'.store.setSlot ref k v, s'.world⟩ := by
  obtain ⟨a, i, -, hslot⟩ := h
  obtain ⟨n, place, place', -, -, hlow, hhigh, hk⟩ := Machine.slotOf_eq_ok_iff.1 hslot
  exact slotChanged_setSlot (by omega) v

/-! ### Main result -/

/-- **Increments read their target, and then store in it.**  Let the answers of the
host keep the names of all scopes.

* An increment of a variable succeeds exactly if the variable and the amount, which
  is evaluated once, have a sum (a difference).  It changes the binding that was read,
  and leaves all else as the amount has left it.
* An increment of an element succeeds exactly if its parts lead to a slot that can be
  read, this and the amount have a sum, and the parts, evaluated once more in the
  state `s₂` that the amount has left, lead to a slot that can be written.  It changes
  this slot, and nothing else in the state `s₃` that its parts have left.
* The slot that is written is the one that was read if `s₂` is the state `s` in which
  the increment began, in particular if target and amount are steady. -/
theorem increments_read_then_write (host : Host σ) (hhost : host.KeepsNames) (settings : Settings)
    (d : Nat) (env : Env) (amount : Expr) (direction : Direction) (span : Span) (s s' : State σ)
    (w : Value) (hw : w.isSignal = false) :
    (∀ id, (∀ r ∈ env.chain, r.index < s.store.scopes.size) →
      ((Control.stmt (.change (.ident id) amount direction span) env).Yields host settings d s w
          s' ↔
        w = .null span ∧ ∃ ref old a new s₁, s.store.Innermost id.name env.chain ref ∧
          (s.store.scope ref).get? id.name = some old ∧
          Evaluated host settings d env [amount] s [a] s₁ ∧ Changes span direction old a new ∧
          s' = ⟨s₁.store.bind ref id.name new, s₁.world⟩ ∧
          BindingChanged ref id.name new s₁ s')) ∧
    ∀ x y slot,
      ((Control.stmt (.change (.index x y slot) amount direction span) env).Yields host settings d s
          w s' ↔
        w = .null span ∧ ∃ ref k old s₁ a new s₂ ref' k' s₃,
          Reaches host settings d env x y s ref k s₁ ∧ (s₁.store.elements ref)[k]? = some old ∧
          Evaluated host settings d env [amount] s₁ [a] s₂ ∧ Changes span direction old a new ∧
          Reaches host settings d env x y s₂ ref' k' s₃ ∧
          s' = ⟨s₃.store.setSlot ref' k' new, s₃.world⟩ ∧ SlotChanged ref' k' new s₃ s' ∧
          (s₂ = s → ref' = ref ∧ k' = k ∧ s₃ = s₁) ∧
          (x.Steady → y.Steady → amount.Steady → s₁ = s ∧ s₂ = s)) := by
  refine ⟨fun id henv => ?_, fun x y slot => ?_⟩
  · rw [yields_change_ident hhost hw henv]
    constructor
    · rintro ⟨rfl, ref, old, a, new, s₁, hname, hread, heval, hnew, rfl⟩
      refine ⟨rfl, ref, old, a, new, s₁, hname, hread, heval, hnew, rfl, ?_⟩
      refine bindingChanged_bind (s := s₁) (Nat.lt_of_lt_of_le (henv ref ?_) ?_) id.name new
      · -- the owner is a scope of the chain, and scopes stay
        exact (Store.mem_of_owner? (Store.owner?_eq_some_iff.2 hname)).1
      · cases heval with
        | cons hamount _ hnil =>
          cases hnil
          exact (hamount.keepsNames hhost).size
    · rintro ⟨rfl, ref, old, a, new, s₁, hname, hread, heval, hnew, hs', -⟩
      exact ⟨rfl, ref, old, a, new, s₁, hname, hread, heval, hnew, hs'⟩
  · rw [yields_change_index hw]
    constructor
    · rintro ⟨rfl, ref, k, old, s₁, a, new, s₂, ref', k', s₃, hread, helement, heval, hnew,
        hwritten, rfl⟩
      refine ⟨rfl, ref, k, old, s₁, a, new, s₂, ref', k', s₃, hread, helement, heval, hnew,
        hwritten, rfl, hwritten.slotChanged new, ?_, ?_⟩
      · rintro rfl
        exact hwritten.unique hread
      · intro hx hy hamount
        obtain ⟨_, _, hparts, -⟩ := hread
        -- steady expressions leave the state as it is
        have hfirst : s₁ = s := hparts.state_eq (by simp [hx, hy])
        have hsecond : s₂ = s₁ := heval.state_eq (by simp [hamount])
        exact ⟨hfirst, hsecond.trans hfirst⟩
    · rintro ⟨rfl, ref, k, old, s₁, a, new, s₂, ref', k', s₃, hread, helement, heval, hnew,
        hwritten, hs', -⟩
      exact ⟨rfl, ref, k, old, s₁, a, new, s₂, ref', k', s₃, hread, helement, heval, hnew, hwritten,
        hs'⟩

/-- An array `a`, a variable `x` and some lines of input. -/
def waiting (input : List InputLine) : State Console :=
  ⟨⟨#[[("a", .array ⟨0⟩ default), ("x", .int 1 default)]],
    #[#[.int 10 default, .int 20 default]], #[]⟩, { input := input }⟩

/-- Adds 5 to a target. -/
def addsFive (target : Expr) : Control :=
  .stmt (.change target (.int 5 default) .increasing default) default

/-- The element of `a` at the index that is taken from the input. -/
def elementAtInput : Expr :=
  .index (.ident ⟨"a", default⟩) (.command .input default) default

/-- The input is 1, and then 2: the first element is read, and the second one
written.  A variable is changed where it is read. -/
theorem increments_read_then_write_input :
    (∃ s', (addsFive elementAtInput).Yields Console.host {} 0
        (waiting [.text ['1'], .text ['2']]) (.null default) s' ∧
      SlotChanged ⟨0⟩ 1 (.int 15 default) (waiting []) s') ∧
    ∃ s', (addsFive (.ident ⟨"x", default⟩)).Yields Console.host {} 0 (waiting []) (.null default)
        s' ∧
      BindingChanged ⟨0⟩ "x" (.int 6 default) (waiting []) s' := by
  have hread : Reaches Console.host {} 0 default (.ident ⟨"a", default⟩) (.command .input default)
      (waiting [.text ['1'], .text ['2']]) ⟨0⟩ 0 (waiting [.text ['2']]) :=
    ⟨_, _, .cons ⟨1, rfl⟩ rfl (.cons ⟨1, rfl⟩ rfl (.nil _)), rfl⟩
  have hwritten : Reaches Console.host {} 0 default (.ident ⟨"a", default⟩)
      (.command .input default) (waiting [.text ['2']]) ⟨0⟩ 1 (waiting []) :=
    ⟨_, _, .cons ⟨1, rfl⟩ rfl (.cons ⟨1, rfl⟩ rfl (.nil _)), rfl⟩
  have hfive : ∀ input, Evaluated Console.host {} 0 default [.int 5 default] (waiting input)
      [.int 5 default] (waiting input) := fun _ => .cons ⟨1, rfl⟩ rfl (.nil _)
  have hspec := fun s s' => increments_read_then_write Console.host Console.keepsNames_host {} 0
    default (.int 5 default) .increasing default s s' (.null default) rfl
  constructor
  · have hchanged := hwritten.slotChanged (.int 15 default)
    refine ⟨_, ((hspec _ _).2 _ _ default).2 ⟨rfl, ⟨0⟩, 0, .int 10 default, _, .int 5 default,
      .int 15 default, _, ⟨0⟩, 1, _, hread, rfl, hfive _, ?_, hwritten, rfl, hchanged, ?_, ?_⟩,
      hchanged⟩
    · exact .sum (a := 10) (b := 5) ⟨by decide, by decide⟩
    · intro h
      cases h
    · intro _ hcommand
      cases hcommand
  · have hname : (waiting []).store.Innermost "x" (default : Env).chain ⟨0⟩ :=
      ⟨[], [], rfl, by simp, rfl⟩
    have hchanged : BindingChanged ⟨0⟩ "x" (.int 6 default) (waiting [])
        ⟨(waiting []).store.bind ⟨0⟩ "x" (.int 6 default), (waiting []).world⟩ :=
      bindingChanged_bind (by decide) "x" (.int 6 default)
    refine ⟨_, ((hspec _ _).1 _ ?_).2 ⟨rfl, ⟨0⟩, .int 1 default, .int 5 default, .int 6 default, _,
      hname, rfl, hfive [], ?_, rfl, hchanged⟩, hchanged⟩
    · intro r hr
      obtain rfl := List.mem_singleton.1 hr
      decide
    · exact .sum (a := 1) (b := 5) ⟨by decide, by decide⟩

end Dncl
