/-
Dncl/Proofs/Alike.lean

Stores that differ only in places.

Two values are *alike* if they are of the same kind and have the same content,
whatever spans they carry.  Arrays and functions are references, so what is
alike depends on which references stand for each other.  A `Link` says so; it
is one-to-one, which makes the sharing the same on both sides.  What is not
linked, such as an array that nothing refers to any more, need not correspond
to anything.

Everything that a program can do to a store or find out about it respects
alikeness: looking up and binding names, making and changing things, texts,
equality and containment.

Design.  `Store.Alike L st st'` compares linked things one by one.  Making
something extends the link (`Link.Grows`), and alikeness survives that (`mono`).
Texts and comparisons of arrays go down to a number of layers that depends on
the store; the layers suffice on both sides if the stores have as many arrays,
or if no array lies inside itself (`Store.Finite`).
-/
import Mathlib.Data.List.Forall2
import Mathlib.Data.Option.Basic
import Mathlib.Logic.Relator
import Dncl.Proofs.Acyclic
import Dncl.Proofs.Erase
import Dncl.Proofs.Scoping

namespace Dncl

open List (Forall₂)

variable {a b inner inner' : ArrayRef} {vs ws : List Value} {c c' : Closure} {v w : Value}
    {env env' : Env}

/-! ### Links -/

/-- Which scopes, arrays and functions of two stores stand for each other. -/
structure Link where
  scope : ScopeRef → ScopeRef → Prop
  array : ArrayRef → ArrayRef → Prop
  closure : ClosureRef → ClosureRef → Prop
  /-- How many arrays the first store has more. -/
  excess : Int

/-- Whatever `L` links is linked by `L'`. -/
structure Link.Grows (L L' : Link) : Prop where
  scope : ∀ {a b}, L.scope a b → L'.scope a b
  array : ∀ {a b}, L.array a b → L'.array a b
  closure : ∀ {a b}, L.closure a b → L'.closure a b
  excess : L'.excess = L.excess

namespace Link

variable {L L' L'' : Link}

theorem Grows.refl (L : Link) : L.Grows L :=
  ⟨id, id, id, rfl⟩

theorem Grows.trans (h₁ : L.Grows L') (h₂ : L'.Grows L'') : L.Grows L'' :=
  ⟨fun h => h₂.scope (h₁.scope h), fun h => h₂.array (h₁.array h),
    fun h => h₂.closure (h₁.closure h), h₂.excess.trans h₁.excess⟩

/-- The link with two more scopes. -/
def withScope (L : Link) (a b : ScopeRef) : Link :=
  { L with scope := fun x y => L.scope x y ∨ (x = a ∧ y = b) }

/-- The link with two more arrays. -/
def withArray (L : Link) (a b : ArrayRef) : Link :=
  { L with array := fun x y => L.array x y ∨ (x = a ∧ y = b) }

/-- The link with two more functions. -/
def withClosure (L : Link) (a b : ClosureRef) : Link :=
  { L with closure := fun x y => L.closure x y ∨ (x = a ∧ y = b) }

theorem grows_withScope (L : Link) (a b : ScopeRef) : L.Grows (L.withScope a b) :=
  ⟨.inl, id, id, rfl⟩

theorem grows_withArray (L : Link) (a b : ArrayRef) : L.Grows (L.withArray a b) :=
  ⟨id, .inl, id, rfl⟩

theorem grows_withClosure (L : Link) (a b : ClosureRef) : L.Grows (L.withClosure a b) :=
  ⟨id, id, .inl, rfl⟩

/-- A one-to-one relation stays so with a pair that is new on both sides. -/
theorem biUnique_insert {α β : Type} {r : α → β → Prop} (h : Relator.BiUnique r) {a : α} {b : β}
    (ha : ∀ y, ¬ r a y) (hb : ∀ x, ¬ r x b) :
    Relator.BiUnique fun x y => r x y ∨ (x = a ∧ y = b) := by
  refine ⟨?_, ?_⟩
  · rintro x x' y (hx | ⟨rfl, rfl⟩) (hx' | ⟨rfl, hy⟩)
    · exact h.1 hx hx'
    · exact absurd (hy ▸ hx) (hb x)
    · exact absurd hx' (hb x')
    · rfl
  · rintro x y y' (hy | ⟨rfl, rfl⟩) (hy' | ⟨hx, rfl⟩)
    · exact h.2 hy hy'
    · exact absurd (hx ▸ hy) (ha y)
    · exact absurd hy' (ha y')
    · rfl

/-- Under a link that is one to one, the same on one side is the same on the other. -/
theorem beq_eq {α β : Type} [DecidableEq α] [DecidableEq β] {r : α → β → Prop}
    (h : Relator.BiUnique r) {a a' : α} {b b' : β} (hab : r a b) (hab' : r a' b') :
    (a == a') = (b == b') := by
  rw [Bool.eq_iff_iff, beq_iff_eq, beq_iff_eq]
  constructor
  · rintro rfl
    exact h.2 hab hab'
  · rintro rfl
    exact h.1 hab hab'

end Link

/-! ### Values, scopes and functions -/

/-- Values that differ in their spans only. -/
inductive Value.Alike (L : Link) : Value → Value → Prop
  | int (n : Int) (s s' : Span) : Alike L (.int n s) (.int n s')
  | str (text : String) (s s' : Span) : Alike L (.str text s) (.str text s')
  | bool (b : Bool) (s s' : Span) : Alike L (.bool b s) (.bool b s')
  | array {a b : ArrayRef} (s s' : Span) : L.array a b → Alike L (.array a s) (.array b s')
  | null (s s' : Span) : Alike L (.null s) (.null s')
  | function {a b : ClosureRef} (s s' : Span) : L.closure a b →
      Alike L (.function a s) (.function b s')
  | error (message : String) (s s' : Span) : Alike L (.error message s) (.error message s')
  | typeError (message : String) (s s' : Span) :
      Alike L (.typeError message s) (.typeError message s')
  | returned {v w : Value} (s s' : Span) : Alike L v w → Alike L (.returned v s) (.returned w s')

/-- Environments whose scopes are linked, from the inside out. -/
def Env.Alike (L : Link) (env env' : Env) : Prop :=
  Forall₂ L.scope env.chain env'.chain

/-- Scopes that bind the same names, to values that are alike. -/
def Scope.Alike (L : Link) (s s' : Scope) : Prop :=
  ∀ name, Option.Rel (Value.Alike L) (s.get? name) (s'.get? name)

/-- Functions with the same name and the same code, made in environments that are
alike. -/
structure Closure.Alike (L : Link) (c c' : Closure) : Prop where
  name : c.name = c'.name
  literal : c.literal.erase = c'.literal.erase
  env : c.env.Alike L c'.env

/-- Two results that are related are both missing, or both there. -/
theorem rel_cases {α β : Type} {r : α → β → Prop} {o : Option α} {o' : Option β}
    (h : Option.Rel r o o') :
    (o = none ∧ o' = none) ∨ ∃ x y, o = some x ∧ o' = some y ∧ r x y := by
  cases h with
  | none => exact .inl ⟨rfl, rfl⟩
  | some h => exact .inr ⟨_, _, rfl, rfl, h⟩

section Mono

variable {L L' : Link} (hL : L.Grows L')

include hL

/-- What is alike stays so under a link that has grown. -/
theorem Value.Alike.mono (h : v.Alike L w) : v.Alike L' w := by
  induction h with
  | array s s' h => exact .array s s' (hL.array h)
  | function s s' h => exact .function s s' (hL.closure h)
  | returned s s' _ ih => exact .returned s s' ih
  | _ => constructor

theorem Env.Alike.mono (h : env.Alike L env') : env.Alike L' env' :=
  Forall₂.imp (fun _ _ => hL.scope) h

theorem Scope.Alike.mono {s s' : Scope} (h : s.Alike L s') : s.Alike L' s' := by
  intro name
  rcases rel_cases (h name) with ⟨hs, hs'⟩ | ⟨v, w, hs, hs', hv⟩
  · rw [hs, hs']
    exact .none
  · rw [hs, hs']
    exact .some (hv.mono hL)

theorem Closure.Alike.mono (h : c.Alike L c') : c.Alike L' c' :=
  ⟨h.name, h.literal, h.env.mono hL⟩

theorem alikeAll_mono (h : Forall₂ (Value.Alike L) vs ws) : Forall₂ (Value.Alike L') vs ws :=
  Forall₂.imp (fun _ _ hv => hv.mono hL) h

end Mono

section Values

variable {L : Link} {v w : Value}

theorem Value.Alike.kind_eq (h : v.Alike L w) : v.kind = w.kind := by
  cases h <;> rfl

theorem Value.Alike.isSignal_eq (h : v.Alike L w) : v.isSignal = w.isSignal := by
  rw [Value.isSignal, Value.isSignal, Value.isError, Value.isError, h.kind_eq]

theorem Value.Alike.unwrap (h : v.Alike L w) : v.unwrap.Alike L w.unwrap := by
  cases h with
  | returned s s' h => exact h
  | _ => constructor <;> assumption

/-- One fault at two places gives values that are alike. -/
theorem Fault.alike_valueAt (L : Link) (f : Fault) (s s' : Span) :
    (f.valueAt s).Alike L (f.valueAt s') := by
  rw [Fault.valueAt, Fault.valueAt]
  split
  · exact .typeError _ s s'
  · exact .error _ s s'

/-- Functions with the same code have parameters of the same names. -/
theorem FunctionLit.params_eq {f f' : FunctionLit} (h : f.erase = f'.erase) :
    f.params.map Ident.name = f'.params.map Ident.name := by
  obtain ⟨params, body, span⟩ := f
  obtain ⟨params', body', span'⟩ := f'
  rw [FunctionLit.erase, FunctionLit.erase] at h
  have hparams := (FunctionLit.mk.inj h).1
  simpa [Ident.erase, Function.comp_def] using congrArg (List.map Ident.name) hparams

theorem Closure.Alike.text_eq (h : c.Alike L c') : c.text = c'.text := by
  rw [Closure.text, Closure.text, h.name, FunctionLit.params_eq h.literal]

theorem Env.Alike.here (h : env.Alike L env') : L.scope env.here env'.here :=
  (List.forall₂_cons.1 h).1

end Values

/-! ### Stores -/

/-- Lists that are related stay so if one place is set in both. -/
theorem forall₂_set {α β : Type} {r : α → β → Prop} {xs : List α} {ys : List β}
    (h : Forall₂ r xs ys) (i : Nat) {x : α} {y : β} (hxy : r x y) :
    Forall₂ r (xs.set i x) (ys.set i y) := by
  induction h generalizing i with
  | nil => exact .nil
  | cons hab hrest ih =>
    cases i with
    | zero => exact .cons hxy hrest
    | succ i => exact .cons hab (ih i)

/-- Stores in which linked things are alike. -/
structure Store.Alike (L : Link) (st st' : Store) : Prop where
  scopeUnique : Relator.BiUnique L.scope
  arrayUnique : Relator.BiUnique L.array
  closureUnique : Relator.BiUnique L.closure
  scopeBound : ∀ {a b}, L.scope a b → a.index < st.scopes.size ∧ b.index < st'.scopes.size
  arrayBound : ∀ {a b}, L.array a b → a.index < st.arrays.size ∧ b.index < st'.arrays.size
  closureBound : ∀ {a b}, L.closure a b →
    a.index < st.closures.size ∧ b.index < st'.closures.size
  scopes : ∀ {a b}, L.scope a b → (st.scope a).Alike L (st'.scope b)
  arrays : ∀ {a b}, L.array a b →
    Forall₂ (Value.Alike L) (st.elements a).toList (st'.elements b).toList
  closures : ∀ {a b}, L.closure a b → (st.closure a).Alike L (st'.closure b)
  excess : (st.arrays.size : Int) = st'.arrays.size + L.excess

namespace Scope

variable {L : Link} {s s' : Scope}

/-- The name that was set has the new value, every other name its old one. -/
theorem get?_set (s : Scope) (name n : String) (v : Value) :
    (s.set name v).get? n = if name = n then some v else s.get? n := by
  induction s with
  | nil => rfl
  | cons b s ih =>
    obtain ⟨m, u⟩ := b
    rw [set, Scope.get?]
    split
    · rename_i hm
      subst hm
      rw [Scope.get?]
      split <;> rfl
    · rename_i hm
      rw [Scope.get?, ih]
      split
      · rename_i hn
        subst hn
        rw [if_neg (Ne.symm hm)]
      · rfl

theorem Alike.binds_eq (h : s.Alike L s') (name : String) : s.binds name = s'.binds name := by
  rcases rel_cases (h name) with ⟨hs, hs'⟩ | ⟨v, w, hs, hs', -⟩
  · rw [binds, binds, hs, hs']
  · rw [binds, binds, hs, hs']
    rfl

theorem Alike.set (h : s.Alike L s') (name : String) (hv : v.Alike L w) :
    (s.set name v).Alike L (s'.set name w) := by
  intro n
  rw [get?_set, get?_set]
  split
  · exact .some hv
  · exact h n

end Scope

namespace Store

theorem scope_bind_self {st : Store} {ref : ScopeRef} (h : ref.index < st.scopes.size)
    (name : String) (v : Value) : (st.bind ref name v).scope ref = (st.scope ref).set name v := by
  rw [scope, scope, bind, Array.getD_eq_getD_getElem?, Array.getD_eq_getD_getElem?,
    Array.getElem?_modify, if_pos rfl, Array.getElem?_eq_getElem h]
  rfl

namespace Alike

variable {L : Link} {st st' : Store} {env env' : Env} {v w : Value}

theorem pairwise_eq {f g : Value → Value → Bool}
    (hfg : ∀ v w x y, v.Alike L w → x.Alike L y → f v x = g w y) {xs ys : List Value}
    (hvs : Forall₂ (Value.Alike L) vs ws) (hxs : Forall₂ (Value.Alike L) xs ys) :
    pairwise f vs xs = pairwise g ws ys := by
  induction hvs generalizing xs ys with
  | nil => cases hxs <;> rfl
  | cons hv _ ih =>
    cases hxs with
    | nil => rfl
    | cons hx hxs => rw [pairwise, pairwise, hfg _ _ _ _ hv hx, ih hxs]

theorem isArrayWith_eq {p q : ArrayRef → Bool} (hpq : ∀ a b, L.array a b → p a = q b)
    (hv : v.Alike L w) : v.isArrayWith p = w.isArrayWith q := by
  cases hv with
  | array s s' hab => exact hpq _ _ hab
  | _ => rfl

variable (h : st.Alike L st')

include h

/-! ### Names -/

/-- A name is found in linked scopes, or on neither side. -/
theorem owner? (name : String) {refs refs' : List ScopeRef} (hrefs : Forall₂ L.scope refs refs') :
    Option.Rel L.scope (st.owner? name refs) (st'.owner? name refs') := by
  induction hrefs with
  | nil => exact .none
  | cons href _ ih =>
    rw [Store.owner?, Store.owner?, (h.scopes href).binds_eq name]
    split
    · exact .some href
    · exact ih

/-- A name has values that are alike, or none on either side. -/
theorem get? (henv : env.Alike L env') (name : String) :
    Option.Rel (Value.Alike L) (st.get? env name) (st'.get? env' name) := by
  rw [get?_eq_owner?, get?_eq_owner?]
  rcases rel_cases (h.owner? name henv) with ⟨ho, ho'⟩ | ⟨ref, ref', ho, ho', href⟩
  · rw [ho, ho']
    exact .none
  · rw [ho, ho']
    exact h.scopes href name

/-- Binding a name in linked scopes. -/
theorem bind {ref ref' : ScopeRef} (href : L.scope ref ref') (name : String) (hv : v.Alike L w) :
    (st.bind ref name v).Alike L (st'.bind ref' name w) := by
  refine { h with scopeBound := fun hab => ?_, scopes := fun {a b} hab => ?_ }
  · simpa [Store.bind] using h.scopeBound hab
  · by_cases ha : a = ref
    · subst ha
      -- the scope that is bound is linked to one scope only, so it is the one bound there
      obtain rfl : b = ref' := h.scopeUnique.2 hab href
      rw [scope_bind_self (h.scopeBound hab).1, scope_bind_self (h.scopeBound hab).2]
      exact (h.scopes hab).set name hv
    · have hb : b ≠ ref' := fun heq => ha (h.scopeUnique.1 hab (heq ▸ href))
      rw [scope_bind_of_ne ha, scope_bind_of_ne hb]
      exact h.scopes hab

theorem define (henv : env.Alike L env') (name : String) (hv : v.Alike L w) :
    (st.define env name v).Alike L (st'.define env' name w) :=
  h.bind henv.here name hv

/-- An assignment goes to linked scopes. -/
theorem assign (henv : env.Alike L env') (name : String) (hv : v.Alike L w) :
    (st.assign env name v).Alike L (st'.assign env' name w) := by
  rw [assign_eq_owner?, assign_eq_owner?]
  rcases rel_cases (h.owner? name henv) with ⟨ho, ho'⟩ | ⟨ref, ref', ho, ho', href⟩
  · rw [ho, ho']
    exact h.bind henv.here name hv
  · rw [ho, ho']
    exact h.bind href name hv

/-- The parameters of a call are bound one after the other, to values that are alike. -/
theorem bindParams (henv : env.Alike L env') {params params' : List Ident}
    (hparams : params.map Ident.name = params'.map Ident.name)
    (hvs : Forall₂ (Value.Alike L) vs ws) :
    (Machine.bindParams env params vs st).Alike L (Machine.bindParams env' params' ws st') := by
  induction params generalizing params' vs ws st st' with
  | nil =>
    obtain rfl : params' = [] := List.map_eq_nil_iff.1 hparams.symm
    exact h
  | cons p params ih =>
    obtain ⟨p', params', rfl, hp, hparams⟩ := List.map_eq_cons_iff.1 hparams.symm
    cases hvs with
    | nil => exact h
    | cons hv hvs =>
      rw [Machine.bindParams, Machine.bindParams, hp]
      exact ih (h.define henv _ hv) hparams.symm hvs

/-! ### Making things -/

/-- A scope that was just made is linked to the one made on the other side. -/
theorem enter (henv : env.Alike L env') :
    ∃ L', L.Grows L' ∧ (st.enter env).1.Alike L' (st'.enter env').1 ∧
      (st.enter env).2.Alike L' (st'.enter env').2 := by
  have hL := L.grows_withScope ⟨st.scopes.size⟩ ⟨st'.scopes.size⟩
  refine ⟨_, hL, .cons (.inr ⟨rfl, rfl⟩) (henv.mono hL), ?_⟩
  refine ⟨?_, h.arrayUnique, h.closureUnique, ?_, h.arrayBound, h.closureBound, ?_, ?_, ?_,
    h.excess⟩
  · exact Link.biUnique_insert h.scopeUnique
      (fun _ hab => Nat.lt_irrefl _ (h.scopeBound hab).1)
      (fun _ hab => Nat.lt_irrefl _ (h.scopeBound hab).2)
  · rintro a b (hab | ⟨rfl, rfl⟩)
    · have hbound := h.scopeBound hab
      simp only [Store.enter, Array.size_push]
      omega
    · simp [Store.enter]
  · rintro a b hab
    show Scope.Alike _ (Store.scope { st with scopes := st.scopes.push [] } a)
      (Store.scope { st' with scopes := st'.scopes.push [] } b)
    rw [scope_push, scope_push]
    rcases hab with hab | ⟨rfl, rfl⟩
    · exact (h.scopes hab).mono hL
    · have hnew : st.scope ⟨st.scopes.size⟩ = [] := by simp [Store.scope]
      have hnew' : st'.scope ⟨st'.scopes.size⟩ = [] := by simp [Store.scope]
      rw [hnew, hnew']
      exact fun _ => .none
  · exact fun hab => alikeAll_mono hL (h.arrays hab)
  · exact fun hab => (h.closures hab).mono hL

/-- An array that was just made is linked to the one made on the other side. -/
theorem newArray (hvs : Forall₂ (Value.Alike L) vs ws) :
    ∃ L', L.Grows L' ∧ L'.array (st.newArray vs).1 (st'.newArray ws).1 ∧
      (st.newArray vs).2.Alike L' (st'.newArray ws).2 := by
  have hL := L.grows_withArray ⟨st.arrays.size⟩ ⟨st'.arrays.size⟩
  refine ⟨_, hL, .inr ⟨rfl, rfl⟩, ?_⟩
  refine ⟨h.scopeUnique, ?_, h.closureUnique, h.scopeBound, ?_, h.closureBound, ?_, ?_, ?_, ?_⟩
  · exact Link.biUnique_insert h.arrayUnique
      (fun _ hab => Nat.lt_irrefl _ (h.arrayBound hab).1)
      (fun _ hab => Nat.lt_irrefl _ (h.arrayBound hab).2)
  · rintro a b (hab | ⟨rfl, rfl⟩)
    · have hbound := h.arrayBound hab
      simp only [Store.newArray, Array.size_push]
      omega
    · simp [Store.newArray]
  · exact fun hab => (h.scopes hab).mono hL
  · rintro a b (hab | ⟨rfl, rfl⟩)
    · have hbound := h.arrayBound hab
      rw [elements_newArray, elements_newArray, if_neg (Nat.ne_of_lt hbound.1),
        if_neg (Nat.ne_of_lt hbound.2)]
      exact alikeAll_mono hL (h.arrays hab)
    · rw [elements_newArray, elements_newArray, if_pos rfl, if_pos rfl]
      exact alikeAll_mono hL hvs
  · exact fun hab => (h.closures hab).mono hL
  · have hexcess := h.excess
    simp only [Store.newArray, Array.size_push, Link.withArray]
    omega

/-- So is a function. -/
theorem newClosure (hc : c.Alike L c') :
    ∃ L', L.Grows L' ∧ L'.closure (st.newClosure c).1 (st'.newClosure c').1 ∧
      (st.newClosure c).2.Alike L' (st'.newClosure c').2 := by
  have hL := L.grows_withClosure ⟨st.closures.size⟩ ⟨st'.closures.size⟩
  refine ⟨_, hL, .inr ⟨rfl, rfl⟩, ?_⟩
  refine ⟨h.scopeUnique, h.arrayUnique, ?_, h.scopeBound, h.arrayBound, ?_, ?_, ?_, ?_, h.excess⟩
  · exact Link.biUnique_insert h.closureUnique
      (fun _ hab => Nat.lt_irrefl _ (h.closureBound hab).1)
      (fun _ hab => Nat.lt_irrefl _ (h.closureBound hab).2)
  · rintro a b (hab | ⟨rfl, rfl⟩)
    · have hbound := h.closureBound hab
      simp only [Store.newClosure, Array.size_push]
      omega
    · simp [Store.newClosure]
  · exact fun hab => (h.scopes hab).mono hL
  · exact fun hab => alikeAll_mono hL (h.arrays hab)
  · rintro a b (hab | ⟨rfl, rfl⟩)
    · have hbound := h.closureBound hab
      rw [closure_newClosure, closure_newClosure, if_neg (Nat.ne_of_lt hbound.1),
        if_neg (Nat.ne_of_lt hbound.2)]
      exact (h.closures hab).mono hL
    · rw [closure_newClosure, closure_newClosure, if_pos rfl, if_pos rfl]
      exact hc.mono hL

/-- Changing an element of linked arrays. -/
theorem setSlot {ref ref' : ArrayRef} (href : L.array ref ref') (slot : Nat) (hv : v.Alike L w) :
    (st.setSlot ref slot v).Alike L (st'.setSlot ref' slot w) := by
  refine { h with arrayBound := fun hab => ?_, arrays := fun {a b} hab => ?_, excess := ?_ }
  · simpa [Store.setSlot] using h.arrayBound hab
  · rw [elements_setSlot, elements_setSlot]
    by_cases ha : ref = a
    · subst ha
      obtain rfl : b = ref' := h.arrayUnique.2 hab href
      rw [if_pos rfl, if_pos rfl, Array.toList_setIfInBounds, Array.toList_setIfInBounds]
      exact forall₂_set (h.arrays hab) slot hv
    · have hb : ref' ≠ b := fun heq => ha (h.arrayUnique.1 (heq ▸ href) hab)
      rw [if_neg ha, if_neg hb]
      exact h.arrays hab
  · simpa [Store.setSlot] using h.excess

/-! ### Inspection, down to a number of layers -/

theorem textWith {f g : ArrayRef → String} (hfg : ∀ a b, L.array a b → f a = g b)
    (hv : v.Alike L w) : v.textWith st f = w.textWith st' g := by
  induction hv with
  | array s s' hab => exact hfg _ _ hab
  | function s s' hab => exact (h.closures hab).text_eq
  | returned s s' _ ih => exact ih
  | _ => rfl

/-- Linked arrays have the same text, as far down as is looked. -/
theorem arrayText (n : Nat) (hab : L.array a b) : st.arrayText n a = st'.arrayText n b := by
  induction n generalizing a b with
  | zero => rfl
  | succ n ih =>
    have helements : (st.elements a).toList.map (Value.textWith st (st.arrayText n)) =
        (st'.elements b).toList.map (Value.textWith st' (st'.arrayText n)) := by
      rw [← List.forall₂_eq_eq_eq, List.forall₂_map_left_iff, List.forall₂_map_right_iff]
      exact (h.arrays hab).imp fun _ _ hv => h.textWith (fun _ _ => ih) hv
    rw [Store.arrayText, Store.arrayText, helements]

theorem equalWith {f g : ArrayRef → ArrayRef → Bool}
    (hfg : ∀ a a' b b', L.array a a' → L.array b b' → f a b = g a' b') {x y : Value}
    (hv : v.Alike L w) (hx : x.Alike L y) : v.equalWith f x = w.equalWith g y := by
  induction hv generalizing x y with
  | array s s' hab =>
    cases hx with
    | array t t' hxy =>
      rw [Value.equalWith, Value.equalWith, hfg _ _ _ _ hab hxy,
        Link.beq_eq h.arrayUnique hab hxy]
    | _ => rfl
  | function s s' hab =>
    cases hx with
    | function t t' hxy => exact Link.beq_eq h.closureUnique hab hxy
    | _ => rfl
  | returned s s' _ ih =>
    cases hx with
    | returned t t' hxy => exact ih hxy
    | _ => rfl
  | _ => cases hx <;> rfl

/-- Linked arrays compare in the same way, as far down as is looked. -/
theorem sameElements (n : Nat) {a' b' : ArrayRef} (ha : L.array a a') (hb : L.array b b') :
    st.sameElements n a b = st'.sameElements n a' b' := by
  induction n generalizing a a' b b' with
  | zero => rfl
  | succ n ih =>
    rw [Store.sameElements, Store.sameElements]
    exact pairwise_eq (fun _ _ _ _ => h.equalWith fun _ _ _ _ => ih) (h.arrays ha) (h.arrays hb)

/-- An array lies inside another if the linked one does. -/
theorem reaches (hinner : L.array inner inner') (n : Nat) (hab : L.array a b) :
    st.reaches inner n a = st'.reaches inner' n b := by
  induction n generalizing a b with
  | zero => rfl
  | succ n ih =>
    have hinside : (st.elements a).toList.map (Value.isArrayWith (st.reaches inner n)) =
        (st'.elements b).toList.map (Value.isArrayWith (st'.reaches inner' n)) := by
      rw [← List.forall₂_eq_eq_eq, List.forall₂_map_left_iff, List.forall₂_map_right_iff]
      exact (h.arrays hab).imp fun _ _ hv => isArrayWith_eq (fun _ _ => ih) hv
    rw [Store.reaches, Store.reaches, Link.beq_eq h.arrayUnique hab hinner,
      ← Function.id_comp (Value.isArrayWith (st.reaches inner n)), ← List.any_map, hinside,
      List.any_map, Function.id_comp]

end Alike

/-! ### Inspection to the bottom -/

/-- No array lies inside itself, values refer to arrays that exist, and no stored
value is one that is given back. -/
structure Finite (st : Store) : Prop where
  grounded : grounded.ObeyedIn st
  acyclic : st.Acyclic
  unwrapped : unwrapped.ObeyedIn st

/-- Looking down `n` layers finds out as much as looking down to the depth of the
store. -/
structure Suffices (st : Store) (n : Nat) : Prop where
  text : ∀ ref, st.arrayText n ref = st.arrayText st.depth ref
  same : ∀ a b, st.sameElements n a b = st.sameElements st.depth a b
  reaches : ∀ inner outer, st.reaches inner n outer = st.reaches inner st.depth outer

variable {st st' : Store} {L : Link}

theorem suffices_depth (st : Store) : st.Suffices st.depth :=
  ⟨fun _ => rfl, fun _ _ => rfl, fun _ _ => rfl⟩

/-- In a finite store no chain of arrays is longer than the depth of the store. -/
theorem Finite.suffices (h : st.Finite) {n : Nat} (hn : st.depth ≤ n) : st.Suffices n := by
  obtain ⟨rank, hle, hrank⟩ := exists_rank (fun _ _ hab => hab.inner_lt h.grounded)
    (h.acyclic.showable h.unwrapped)
  have hdepth : ∀ ref, rank ref < st.depth := fun ref => Nat.lt_succ_of_le (hle ref)
  have hrank' : ∀ a b, st.Holds a b → rank b < rank a := fun a b hab => hrank a b hab.shows
  refine ⟨?_, ?_, ?_⟩
  · exact fun ref => arrayText_congr hrank ((hdepth ref).trans_le hn) (hdepth ref)
  · exact fun a => congrFun (sameElements_congr hrank ((hdepth a).trans_le hn) (hdepth a))
  · intro inner outer
    rw [Bool.eq_iff_iff]
    exact ⟨fun hr => reaches_of_reflTransGen hrank' (reflTransGen_of_reaches hr) (hdepth outer),
      fun hr => reaches_of_reflTransGen hrank' (reflTransGen_of_reaches hr)
        ((hdepth outer).trans_le hn)⟩

/-- The stores have as many arrays, or looking into arrays comes to an end. -/
def Comparable (L : Link) (st st' : Store) : Prop :=
  L.excess = 0 ∨ (st.Finite ∧ st'.Finite)

namespace Alike

variable {v w x y : Value} (h : st.Alike L st') (hd : Comparable L st st')

include h hd

/-- A number of layers that is enough on both sides. -/
theorem exists_suffices : ∃ n, st.Suffices n ∧ st'.Suffices n := by
  rcases hd with hd | ⟨hfin, hfin'⟩
  · have hdepth : st'.depth = st.depth := by
      have hexcess := h.excess
      rw [Store.depth, Store.depth]
      omega
    -- as many arrays: the depths are the same number
    exact ⟨st.depth, st.suffices_depth, hdepth ▸ st'.suffices_depth⟩
  · exact ⟨max st.depth st'.depth, hfin.suffices (Nat.le_max_left _ _),
      hfin'.suffices (Nat.le_max_right _ _)⟩

/-- Values that are alike have the same text. -/
theorem text_eq (hv : v.Alike L w) : st.text v = st'.text w := by
  obtain ⟨n, hn, hn'⟩ := h.exists_suffices hd
  refine h.textWith (fun a b hab => ?_) hv
  rw [← hn.text, ← hn'.text, h.arrayText n hab]

theorem equal_eq (hv : v.Alike L w) (hx : x.Alike L y) : st.equal v x = st'.equal w y := by
  obtain ⟨n, hn, hn'⟩ := h.exists_suffices hd
  refine h.equalWith (fun a a' b b' ha hb => ?_) hv hx
  rw [← hn.same, ← hn'.same, h.sameElements n ha hb]

/-- Linked arrays lie inside values that are alike, or in neither. -/
theorem contains_eq (hv : v.Alike L w) (hinner : L.array inner inner') :
    st.contains v inner = st'.contains w inner' := by
  obtain ⟨n, hn, hn'⟩ := h.exists_suffices hd
  refine isArrayWith_eq (fun a b hab => ?_) hv
  rw [← hn.reaches, ← hn'.reaches, h.reaches hinner n hab]

end Alike

end Store

end Dncl
