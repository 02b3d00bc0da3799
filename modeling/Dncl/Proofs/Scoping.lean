/-
Dncl/Proofs/Scoping.lean

Names stay in the scopes they are bound in.

While an expression is evaluated, or a block is run in a scope of its own, no
scope that was there before gets or loses a name:

    binds name (scope ref after) = binds name (scope ref before).

A statement may bind the name it assigns, counts with or defines, in the scope
in which it is run, and nothing else.

Design.  Let `P ref name` say which names may be bound, among them all names
of scopes that are not there yet.  A machine is *confined* to `P` above some
frames (`Machine.Confined`) if nothing but this was bound so far, and what is
done now and what the frames above wait for bind nothing else.  A closure may
be called from anywhere, but it binds in a scope that is made for the call, so
of the closures in the store nothing has to be known.  Each move of the machine
keeps it confined (`confined_push`, `confined_apply`, …), and so does a run
that has not come back to the frames it started with (`Confined.run`).
-/
import Dncl.Console
import Dncl.Proofs.Stored

namespace Dncl

variable {n name : String} {env : Env} {f : Frame}

/-! ### Names of scopes -/

theorem Scope.binds_cons {v : Value} {s : Scope} :
    Scope.binds n ((name, v) :: s) = true ↔ n = name ∨ s.binds n = true := by
  rw [Scope.binds, Scope.get?]
  split
  · rename_i heq
    exact iff_of_true rfl (.inl heq.symm)
  · rename_i hne
    exact (or_iff_right (Ne.symm hne)).symm

/-- Binding a name adds it and removes none. -/
theorem Scope.binds_set {v : Value} {s : Scope} :
    (s.set name v).binds n = true ↔ s.binds n = true ∨ n = name := by
  induction s with
  | nil => exact Scope.binds_cons.trans or_comm
  | cons b s ih =>
    obtain ⟨n', w⟩ := b
    rw [Scope.set]
    split
    · rename_i heq
      subst heq
      rw [Scope.binds_cons, Scope.binds_cons]
      exact (or_iff_left_of_imp Or.inl).symm
    · rw [Scope.binds_cons, Scope.binds_cons, ih, or_assoc]

namespace Store

variable {st st' st₁ : Store} {P : ScopeRef → String → Prop} {ref : ScopeRef} {env : Env}
  {name : String} {v : Value}

theorem scope_bind_of_ne {r : ScopeRef} (h : r ≠ ref) :
    (st.bind ref name v).scope r = st.scope r := by
  have hindex : ref.index ≠ r.index := fun heq => h (congrArg ScopeRef.mk heq.symm)
  rw [scope, scope, bind, Array.getD_eq_getD_getElem?, Array.getD_eq_getD_getElem?,
    Array.getElem?_modify, if_neg hindex]

/-- A name is defined in an environment if one of its scopes binds it. -/
theorem isDefined_iff : st.isDefined env name = true ↔
    ∃ ref ∈ env.chain, (st.scope ref).binds name = true := by
  rw [isDefined]
  induction env.chain with
  | nil => simp [definedIn]
  | cons ref outer ih => simp [definedIn, ih]

theorem binds_of_owner? {refs : List ScopeRef} (h : st.owner? name refs = some ref) :
    (st.scope ref).binds name = true := by
  induction refs with
  | nil => cases h
  | cons r refs ih =>
    rw [owner?] at h
    split at h
    · rename_i hbinds
      cases h
      exact hbinds
    · exact ih h

/-- The scopes of `st'` are those of `st`, and new ones.  They bind the same
names, and those that `P` says. -/
structure Widens (P : ScopeRef → String → Prop) (st st' : Store) : Prop where
  size : st.scopes.size ≤ st'.scopes.size
  keeps : ∀ ref name, (st.scope ref).binds name = true → (st'.scope ref).binds name = true
  adds : ∀ ref name, (st'.scope ref).binds name = true →
    (st.scope ref).binds name = true ∨ P ref name

theorem Widens.trans (h₁ : st.Widens P st₁) (h₂ : st₁.Widens P st') : st.Widens P st' where
  size := Nat.le_trans h₁.size h₂.size
  keeps ref name h := h₂.keeps ref name (h₁.keeps ref name h)
  adds ref name h := (h₂.adds ref name h).elim (h₁.adds ref name) .inr

theorem widens_of_scope (hsize : st.scopes.size ≤ st'.scopes.size)
    (h : ∀ ref, st'.scope ref = st.scope ref) : st.Widens P st' where
  size := hsize
  keeps ref name hbinds := by
    rw [h]
    exact hbinds
  adds ref name hbinds := by
    rw [h] at hbinds
    exact .inl hbinds

theorem widens_refl : st.Widens P st :=
  widens_of_scope (Nat.le_refl _) fun _ => rfl

theorem widens_enter (env : Env) : st.Widens P (st.enter env).2 := by
  refine widens_of_scope ?_ fun ref => st.scope_push ref
  simp [enter]

theorem widens_bind (h : P ref name ∨ (st.scope ref).binds name = true) :
    st.Widens P (st.bind ref name v) where
  size := by simp [bind]
  keeps r n hbinds := by
    rcases st.scope_bind ref r name v with hr | hr
    · rw [hr]
      exact hbinds
    · rw [hr]
      exact Scope.binds_set.2 (.inl hbinds)
  adds r n hbinds := by
    by_cases hr : r = ref
    · subst hr
      rcases st.scope_bind r r name v with hr | hr
      · rw [hr] at hbinds
        exact .inl hbinds
      · rw [hr] at hbinds
        rcases Scope.binds_set.1 hbinds with hbinds | rfl
        · exact .inl hbinds
        · exact h.symm
    · rw [scope_bind_of_ne hr] at hbinds
      exact .inl hbinds

/-- The scopes of `st` bind the same names in `st'`. -/
structure KeepsNames (st st' : Store) : Prop where
  size : st.scopes.size ≤ st'.scopes.size
  names : ∀ ref name, ref.index < st.scopes.size →
    (st'.scope ref).binds name = (st.scope ref).binds name

theorem binds_of_size_le (h : st.scopes.size ≤ ref.index) : (st.scope ref).binds name = false := by
  rw [scope, Array.getD_eq_getD_getElem?, Array.getElem?_eq_none h]
  rfl

theorem KeepsNames.widens (h : st.KeepsNames st')
    (hP : ∀ ref name, st.scopes.size ≤ ref.index → P ref name) : st.Widens P st' where
  size := h.size
  keeps ref name hbinds := by
    by_cases hold : ref.index < st.scopes.size
    · rw [h.names ref name hold]
      exact hbinds
    · rw [binds_of_size_le (Nat.le_of_not_lt hold)] at hbinds
      cases hbinds
  adds ref name hbinds := by
    by_cases hold : ref.index < st.scopes.size
    · rw [h.names ref name hold] at hbinds
      exact .inl hbinds
    · exact .inr (hP ref name (Nat.le_of_not_lt hold))

/-- Names are new in the scope `here` only, and these are among `own`. -/
structure AddsNames (here : ScopeRef) (own : List String) (st st' : Store) : Prop where
  size : st.scopes.size ≤ st'.scopes.size
  others : ∀ ref name, ref.index < st.scopes.size → ref ≠ here →
    (st'.scope ref).binds name = (st.scope ref).binds name
  keeps : ∀ name, (st.scope here).binds name = true → (st'.scope here).binds name = true
  adds : ∀ name, here.index < st.scopes.size → (st'.scope here).binds name = true →
    (st.scope here).binds name = true ∨ name ∈ own

theorem Widens.binds_eq (h : st.Widens P st') (hP : ¬ P ref name) :
    (st'.scope ref).binds name = (st.scope ref).binds name :=
  Bool.eq_iff_iff.2 ⟨fun hbinds => (h.adds ref name hbinds).resolve_right hP, h.keeps ref name⟩

theorem Widens.keepsNames (h : st.Widens (fun ref _ => st.scopes.size ≤ ref.index) st') :
    st.KeepsNames st' where
  size := h.size
  names _ _ hold := h.binds_eq (Nat.not_le_of_lt hold)

/-- Names of `own` in the scope `here`, and all names of scopes that are not
there yet. -/
def NewOr (st : Store) (here : ScopeRef) (own : List String) (ref : ScopeRef) (name : String) :
    Prop :=
  st.scopes.size ≤ ref.index ∨ ref = here ∧ name ∈ own

theorem Widens.addsNames {here : ScopeRef} {own : List String}
    (h : st.Widens (st.NewOr here own) st') :
    st.AddsNames here own st' where
  size := h.size
  others _ _ hold hne := h.binds_eq fun hnew =>
    hnew.elim (Nat.not_le_of_lt hold) fun hhere => hne hhere.1
  keeps name := h.keeps here name
  adds name hold hbinds := (h.adds here name hbinds).imp_right fun hnew =>
    (hnew.resolve_left (Nat.not_le_of_lt hold)).2

/-- An assignment of the name binds nothing that `P` does not say. -/
def Allows (P : ScopeRef → String → Prop) (st : Store) (env : Env) (name : String) : Prop :=
  P env.here name ∨ st.isDefined env name = true

theorem Allows.widen (h : st.Allows P env name) (hst : st.Widens P st') :
    st'.Allows P env name := by
  refine h.imp_right fun hdefined => ?_
  obtain ⟨ref, hmem, hbinds⟩ := isDefined_iff.1 hdefined
  exact isDefined_iff.2 ⟨ref, hmem, hst.keeps ref name hbinds⟩

theorem widens_assign (h : st.Allows P env name) : st.Widens P (st.assign env name v) := by
  rw [assign_eq_owner?]
  apply widens_bind
  -- a name that has an owner is bound there already
  cases howner : st.owner? name env.chain with
  | some ref => exact .inr (binds_of_owner? howner)
  | none =>
    refine .inl (h.resolve_right ?_)
    rw [isDefined_eq_owner?, howner]
    nofun

theorem widens_bindParams (h : ∀ name, P env.here name) :
    ∀ (params : List Ident) (arguments : List Value) (st : Store),
      st.Widens P (Machine.bindParams env params arguments st)
  | [], _, _ => widens_refl
  | _ :: _, [], _ => widens_refl
  | p :: params, _ :: arguments, _ =>
    (widens_bind (.inl (h p.name))).trans (widens_bindParams h params arguments _)

end Store

/-! ### Machines that bind only what they may -/

section Confined

variable (P : ScopeRef → String → Prop) (st : Store)

/-- Any name may be bound in the innermost scope. -/
def Env.Open (env : Env) : Prop :=
  ∀ name, P env.here name

/-- The variable that the target stands for, if it is one, may be assigned. -/
def Expr.Allowed (env : Env) : Expr → Prop
  | .ident id => st.Allows P env id.name
  | _ => True

/-- The statement may be run in the environment. -/
def Stmt.Confined (env : Env) : Stmt → Prop
  | .assign target _ _ => target.Allowed P st env
  | .change target _ _ _ => target.Allowed P st env
  | .counted counter _ _ _ _ _ _ => st.Allows P env counter.name
  | .define name _ _ => P env.here name.name
  | _ => True

/-- What the frame is going to bind may be bound. -/
def Frame.Confined : Frame → Prop
  | .sequence _ _ env | .program _ env => env.Open P
  | .assign target env _ => target.Allowed P st env
  | .changeTarget target _ _ _ env | .changeAmount target _ _ _ env => target.Allowed P st env
  | .countFirst counter _ _ _ _ _ env | .countLast counter _ _ _ _ _ env
  | .countStep counter _ _ _ _ _ _ env => st.Allows P env counter.name
  | .countBody loop _ => st.Allows P loop.env loop.counter.name
  | _ => True

/-- What is done now binds nothing but what may be bound. -/
def Control.Confined : Control → Prop
  | .stmt s env => s.Confined P st env
  | .statements _ _ env => env.Open P
  | .count loop => st.Allows P loop.env loop.counter.name
  | _ => True

end Confined

section Widen

variable {P : ScopeRef → String → Prop} {st st' : Store} {env : Env}

theorem Expr.Allowed.widen {target : Expr} (h : target.Allowed P st env)
    (hst : st.Widens P st') : target.Allowed P st' env := by
  cases target with
  | ident id => exact Store.Allows.widen h hst
  | _ => trivial

theorem Frame.Confined.widen (h : f.Confined P st) (hst : st.Widens P st') : f.Confined P st' := by
  cases f with
  | sequence | program => exact h
  | assign | changeTarget | changeAmount => exact Expr.Allowed.widen h hst
  | countFirst | countLast | countStep | countBody => exact Store.Allows.widen h hst
  | _ => trivial

theorem Env.Open.confined (h : env.Open P) (s : Stmt) : s.Confined P st env := by
  have hallows (name : String) : st.Allows P env name := .inl (h name)
  have htarget (target : Expr) : target.Allowed P st env := by
    cases target with
    | ident id => exact hallows id.name
    | _ => trivial
  cases s with
  | assign target | change target => exact htarget target
  | counted counter => exact hallows counter.name
  | define name => exact h name.name
  | _ => trivial

end Widen

/-- Nothing but what may be bound was bound since `start`, and the frames above
those of `below` bind nothing else. -/
structure Kept (P : ScopeRef → String → Prop) (start : Store) (below frames : List Frame)
    (st : Store) : Prop where
  widens : start.Widens P st
  frames : ∃ above, frames = above ++ below ∧ ∀ f ∈ above, f.Confined P st

namespace Kept

variable {P : ScopeRef → String → Prop} {start st st' : Store} {below frames : List Frame}
  {f : Frame}

theorem widen (h : Kept P start below frames st) (hst : st.Widens P st') :
    Kept P start below frames st' := by
  obtain ⟨above, hframes, habove⟩ := h.frames
  exact ⟨h.widens.trans hst, above, hframes, fun f hf => (habove f hf).widen hst⟩

theorem cons (h : Kept P start below frames st) (hf : f.Confined P st) :
    Kept P start below (f :: frames) st := by
  obtain ⟨above, rfl, habove⟩ := h.frames
  exact ⟨h.widens, f :: above, rfl, List.forall_mem_cons.2 ⟨hf, habove⟩⟩

/-- A frame that is above those of `below`. -/
theorem uncons (h : Kept P start below (f :: frames) st)
    (hlength : below.length < (f :: frames).length) :
    f.Confined P st ∧ Kept P start below frames st := by
  obtain ⟨above, hframes, habove⟩ := h.frames
  cases above with
  | nil =>
    rw [hframes] at hlength
    exact absurd hlength (Nat.lt_irrefl _)
  | cons g above =>
    obtain ⟨rfl, rfl⟩ := List.cons.inj hframes
    obtain ⟨hf, habove⟩ := List.forall_mem_cons.1 habove
    exact ⟨hf, h.widens, above, rfl, habove⟩

end Kept

/-- The answers of the host leave the names of all scopes as they are. -/
structure Host.KeepsNames {σ : Type} (host : Host σ) : Prop where
  builtin : ∀ function arguments span (st : Store) world,
    st.KeepsNames (host.builtin function arguments span st world).2.1
  command : ∀ command span (st : Store) world,
    st.KeepsNames (host.command command span st world).2.1

theorem Console.keepsNames_host : Console.host.KeepsNames where
  builtin _ _ _ _ _ := ⟨Nat.le_refl _, fun _ _ _ => rfl⟩
  command _ _ _ _ := ⟨Nat.le_refl _, fun _ _ _ => rfl⟩

namespace Machine

variable {σ : Type} {host : Host σ} {settings : Settings} {P : ScopeRef → String → Prop}
  {start : Store} {below : List Frame} {m : Machine σ}

/-- What is done now, and what is left to the frames above those of `below`,
binds nothing but what may be bound. -/
structure Confined (P : ScopeRef → String → Prop) (start : Store) (below : List Frame)
    (m : Machine σ) : Prop where
  kept : Kept P start below m.frames m.store
  control : m.control.Confined P m.store

section Steps

variable (h : Kept P start below m.frames m.store)
include h

theorem confined_give (v : Value) : (m.give v).Confined P start below :=
  ⟨h, trivial⟩

theorem confined_push {c : Control} (hf : f.Confined P m.store) (hc : c.Confined P m.store) :
    (m.push f c).Confined P start below :=
  ⟨h.cons hf, hc⟩

theorem confined_assign {v : Value} {c : Control} (ha : m.store.Allows P env name)
    (hc : c.Confined P (m.store.assign env name v)) :
    Confined P start below { m with control := c, store := m.store.assign env name v } :=
  ⟨h.widen (Store.widens_assign ha), hc⟩

theorem confined_storeElement (origin : Origin) (container position value : Value)
    (slot span : Span) :
    (m.storeElement origin container position value slot span).Confined P start below := by
  rw [storeElement]
  split
  · exact confined_give h _
  · split
    · exact confined_give h _
    · exact ⟨h.widen (Store.widens_of_scope (Nat.le_refl _) fun _ => rfl), trivial⟩

theorem confined_beginStore {target : Expr} (value : Value) (span : Span)
    (ha : target.Allowed P m.store env) :
    (m.beginStore target value env span).Confined P start below := by
  cases target with
  | ident id => exact confined_assign h ha trivial
  | index => exact confined_push h trivial trivial
  | _ => exact confined_give h _

theorem confined_beginCount {counter : Ident} (first last step : Value) (stepSpan : Span)
    (direction : Direction) (body : Block) (span : Span) (ha : m.store.Allows P env counter.name) :
    (m.beginCount counter first last step stepSpan direction body span env).Confined P start
      below := by
  rw [beginCount.eq_def]
  split
  · split
    · exact confined_give h _
    · exact confined_assign h ha (ha.widen (Store.widens_assign ha))
  · exact confined_give h _

theorem confined_countOn {loop : Counting} (current : Int)
    (ha : m.store.Allows P loop.env loop.counter.name) :
    (m.countOn loop current).Confined P start below := by
  rw [countOn]
  split
  · exact confined_assign h ha (ha.widen (Store.widens_assign ha))
  · exact confined_give h _

variable (hP : ∀ ref name, start.scopes.size ≤ ref.index → P ref name)
include hP

/-- Any name may be bound in a scope that was just made. -/
theorem open_enter (env : Env) : (m.store.enter env).1.Open P :=
  fun name => hP _ name h.widens.size

theorem confined_pushBlock (b : Block) (env : Env) (hf : f.Confined P m.store) :
    (m.pushBlock f b env).Confined P start below := by
  have hwidens : m.store.Widens P (m.store.enter env).2 := Store.widens_enter env
  exact ⟨(h.widen hwidens).cons (hf.widen hwidens), open_enter h hP env⟩

theorem confined_count {loop : Counting} (ha : m.store.Allows P loop.env loop.counter.name) :
    (m.count loop).Confined P start below := by
  rw [count]
  split
  · split
    · exact confined_pushBlock h hP loop.body loop.env ha
    · exact confined_give h _
  · exact confined_give h _
  · exact confined_give h _

theorem confined_choose (c : Conditional) (env : Env) (v : Value) :
    (m.choose c env v).Confined P start below := by
  rw [choose.eq_def]
  split
  · exact confined_pushBlock h hP c.consequence env trivial
  · split
    · exact confined_give h _
    · exact confined_push h trivial trivial
    · exact confined_pushBlock h hP _ env trivial
  · exact confined_give h _

theorem confined_apply (callee : Value) (arguments : List Value) (span : Span) :
    (m.apply settings callee arguments span).Confined P start below := by
  cases callee with
  | function ref place =>
    by_cases harity : arguments.length = (m.store.closure ref).literal.params.length
    · by_cases hdepth : m.depth < settings.maxDepth
      · rw [apply_eq harity hdepth]
        have hopen := open_enter h hP (m.store.closure ref).env
        have hparams := Store.widens_bindParams hopen (m.store.closure ref).literal.params arguments
          (m.store.enter (m.store.closure ref).env).2
        -- the scopes of the closure are around the new one, and are not touched
        exact ⟨((h.widen (Store.widens_enter _)).widen hparams).cons trivial, hopen⟩
      · rw [apply, if_neg (not_not_intro harity), if_pos (Nat.le_of_not_lt hdepth)]
        exact confined_give h _
    · rw [apply, if_pos harity]
      exact confined_give h _
  | _ => exact confined_give h _

theorem confined_beginStmt {s : Stmt} (hs : s.Confined P m.store env) :
    (m.beginStmt env s).Confined P start below := by
  cases s with
  | expr | conditional => exact ⟨h, trivial⟩
  | assign | counted | change => exact confined_push h hs trivial
  | whileLoop | giveBack => exact confined_push h trivial trivial
  | untilLoop body => exact confined_pushBlock h hP body env trivial
  | define name function span =>
    have hclosure : m.store.Widens P (m.makeFunction (some name.name) function env).2 :=
      Store.widens_of_scope (Nat.le_refl _) fun _ => rfl
    exact ⟨h.widen (hclosure.trans (Store.widens_bind (.inl hs))), trivial⟩

/-- What the host leaves of a store binds only what may be bound. -/
theorem widens_answer {st : Store} (hst : m.store.KeepsNames st) : m.store.Widens P st :=
  hst.widens fun ref name hnew => hP ref name (Nat.le_trans h.widens.size hnew)

variable (hhost : host.KeepsNames)
include hhost

theorem confined_deliver (purpose : Purpose) (values : List Value) :
    (m.deliver host settings purpose values).Confined P start below := by
  cases purpose with
  | array span => exact ⟨h.widen (Store.widens_of_scope (Nat.le_refl _) fun _ => rfl), trivial⟩
  | call callee span => exact confined_apply h hP callee values span
  | builtin function span =>
    have hwidens := widens_answer h hP (hhost.builtin function values span m.store m.world)
    rw [deliver, applyBuiltin]
    split
    rename_i value store world hanswer
    rw [hanswer] at hwidens
    split
    · exact ⟨h.widen hwidens, trivial⟩
    · exact ⟨h.widen hwidens, trivial⟩

theorem confined_collect (purpose : Purpose) (done : List Value) (rest : List Expr) (env : Env) :
    (m.collect host settings purpose done rest env).Confined P start below := by
  cases rest with
  | nil => exact confined_deliver h hP hhost purpose done.reverse
  | cons e rest => exact confined_push h trivial trivial

theorem confined_beginExpr (env : Env) (e : Expr) :
    (m.beginExpr host settings env e).Confined P start below := by
  cases e with
  | ident id =>
    rw [beginExpr]
    split <;> exact confined_give h _
  | int | str | absent => exact confined_give h _
  | array elements span => exact confined_collect h hP hhost (.array span) [] elements env
  | builtin function arguments span =>
    exact confined_collect h hP hhost (.builtin function span) [] arguments env
  | prefixOp | infixOp | index | call => exact confined_push h trivial trivial
  | function literal =>
    exact ⟨h.widen (Store.widens_of_scope (Nat.le_refl _) fun _ => rfl), trivial⟩
  | command c span =>
    exact ⟨h.widen (widens_answer h hP (hhost.command c span m.store m.world)), trivial⟩
  | nested inner span => exact ⟨h, trivial⟩

/-- A value goes on with a frame that is confined. -/
theorem confined_resume (v : Value) (hf : f.Confined P m.store) :
    (m.resume host settings v f).Confined P start below := by
  cases f with
  | collect purpose done rest env => exact confined_collect h hP hhost purpose (v :: done) rest env
  | callee arguments env span => exact confined_collect h hP hhost (.call v span) [] arguments env
  | prefixOp | infixRight | indexRight | settle | giveBack => exact confined_give h _
  | infixLeft op right env span =>
    rw [resume]
    split
    · exact confined_give h _
    · exact confined_push h trivial trivial
  | indexLeft | storeLeft | whileBody | untilBody => exact confined_push h trivial trivial
  -- leaving a function does not touch the store
  | call span => exact ⟨h, trivial⟩
  | sequence rest span env => exact ⟨h, hf⟩
  | program rest env =>
    cases rest with
    | nil => exact confined_give h _
    | cons s rest => exact confined_push h hf (Env.Open.confined hf s)
  | assign target env span => exact confined_beginStore h v span hf
  | storeRight container value slot span =>
    exact confined_storeElement h settings.origin container v value slot span
  | branch c env => exact confined_choose h hP c env v
  | countFirst | countLast => exact confined_push h hf trivial
  | countStep counter first last stepSpan direction body span env =>
    exact confined_beginCount h first last v stepSpan direction body span hf
  | countBody loop current => exact confined_countOn h current hf
  | whileTest condition body span env =>
    rw [resume.eq_def]
    simp only
    split
    · exact confined_pushBlock h hP body env trivial
    · exact confined_give h _
    · exact confined_give h _
  | untilTest body condition span env =>
    rw [resume.eq_def]
    simp only
    split
    · exact confined_give h _
    · exact confined_pushBlock h hP body env trivial
    · exact confined_give h _
  | changeTarget => exact confined_push h hf trivial
  | changeAmount target current direction span env =>
    rw [resume]
    split
    · exact confined_give h _
    · exact confined_beginStore h _ span hf

end Steps

/-! ### Runs -/

/-- The machine has not come back to its frames, with a value or a failure,
in less than `k` steps. -/
def Inside (host : Host σ) (settings : Settings) (m : Machine σ) (k : Nat) : Prop :=
  ∀ j < k, (m.run host settings j).control.isBusy = true ∨
    m.frames.length < (m.run host settings j).frames.length

instance (host : Host σ) (settings : Settings) (m : Machine σ) (k : Nat) :
    Decidable (m.Inside host settings k) :=
  inferInstanceAs (Decidable (∀ j < k, _))

theorem Confined.step (hhost : host.KeepsNames)
    (hP : ∀ ref name, start.scopes.size ≤ ref.index → P ref name) (h : m.Confined P start below)
    (hinside : m.control.isBusy = true ∨ below.length < m.frames.length) :
    (m.step host settings).Confined P start below := by
  obtain ⟨control, frames, store, depth, world⟩ := m
  obtain ⟨hkept, hcontrol⟩ := h
  cases control with
  | expr e env => exact confined_beginExpr hkept hP hhost env e
  | stmt s env => exact confined_beginStmt hkept hP hcontrol
  | statements rest span env =>
    cases rest with
    | nil => exact confined_give hkept _
    | cons s rest => exact confined_push hkept hcontrol (Env.Open.confined hcontrol s)
  | conditional c env => exact confined_push hkept trivial trivial
  | count loop => exact confined_count hkept hP hcontrol
  | value v =>
    -- the frame that gets the value is not among those of `below`
    have hlength := hinside.resolve_left (by rintro ⟨⟩)
    cases frames with
    | nil => cases hlength
    | cons f frames =>
      obtain ⟨hf, hbelow⟩ := hkept.uncons hlength
      rw [Machine.step]
      simp only
      split
      · cases f <;> exact ⟨hbelow, trivial⟩
      · exact confined_resume (m := ⟨.value v, frames, store, depth, world⟩) hbelow hP hhost v hf
  | abort failure =>
    have hlength := hinside.resolve_left (by rintro ⟨⟩)
    cases frames with
    | nil => cases hlength
    | cons f frames =>
      obtain ⟨-, hbelow⟩ := hkept.uncons hlength
      cases f <;> exact ⟨hbelow, trivial⟩

theorem Confined.run (hhost : host.KeepsNames)
    (hP : ∀ ref name, start.scopes.size ≤ ref.index → P ref name)
    (h : m.Confined P start m.frames) {k : Nat} (hk : m.Inside host settings k) :
    (m.run host settings k).Confined P start m.frames := by
  induction k with
  | zero => exact h
  | succ k ih =>
    rw [run_succ]
    exact (ih fun j hj => hk j (Nat.lt_succ_of_lt hj)).step hhost hP (hk k (Nat.lt_succ_self k))

/-- A variable that is not defined is not changed: its value is a fault, which
ends the statement. -/
theorem store_run_change {id : Ident} {amount : Expr} {direction : Direction} {span : Span}
    {k : Nat} (hm : m.control = .stmt (.change (.ident id) amount direction span) env)
    (hundefined : ¬ m.store.isDefined env id.name = true) (hk : m.Inside host settings k) :
    (m.run host settings k).store = m.store := by
  have hnone : m.store.get? env id.name = none := by
    rw [Store.isDefined_eq_owner?, Option.not_isSome_iff_eq_none] at hundefined
    rw [Store.get?_eq_owner?, hundefined, Option.bind_none]
  let target : Machine σ := m.push (.changeTarget (.ident id) amount direction span env)
    (.expr (.ident id) env)
  have hfirst : m.step host settings = target := by
    rw [step, hm]
    rfl
  have hsecond : target.step host settings = target.blame (.undefined id.name) id.span := by
    simp [target, push, step, beginExpr, hnone]
  have hthird : (target.blame (.undefined id.name) id.span).step host settings =
      m.blame (.undefined id.name) id.span := by
    simp [target, push, step, blame, give, unwind]
  have hle : k ≤ 3 := by
    refine Nat.le_of_not_lt fun hlt => ?_
    have hback := hk 3 hlt
    rw [run_succ, run_succ, run_succ, run, hfirst, hsecond, hthird] at hback
    exact hback.elim (by rintro ⟨⟩) (Nat.lt_irrefl _)
  rcases k with _ | _ | _ | _ | k
  · rfl
  · rw [run_succ, run, hfirst]; rfl
  · rw [run_succ, run_succ, run, hfirst, hsecond]; rfl
  · rw [run_succ, run_succ, run_succ, run, hfirst, hsecond, hthird]; rfl
  · omega

end Machine

/-! ### Main result -/

/-- The names that the statement binds in the scope where it is run. -/
def Stmt.ownNames : Stmt → List String
  | .assign (.ident id) _ _ => [id.name]
  | .counted counter _ _ _ _ _ _ => [counter.name]
  | .define name _ _ => [name.name]
  | _ => []

namespace Machine

variable {σ : Type} {host : Host σ} {settings : Settings} {m : Machine σ} {env : Env} {k : Nat}

theorem confined_self {P : ScopeRef → String → Prop} (h : m.control.Confined P m.store) :
    m.Confined P m.store m.frames :=
  ⟨⟨Store.widens_refl, [], rfl, nofun⟩, h⟩

/-- A statement binds its own names in its scope. -/
theorem addsNames_run (hhost : host.KeepsNames) {s : Stmt} (hm : m.control = .stmt s env)
    (hk : m.Inside host settings k) :
    m.store.AddsNames env.here s.ownNames (m.run host settings k).store := by
  have hconfined (hs : s.Confined (m.store.NewOr env.here s.ownNames) m.store env) :
      m.store.AddsNames env.here s.ownNames (m.run host settings k).store := by
    have hstart : m.Confined (m.store.NewOr env.here s.ownNames) m.store m.frames :=
      confined_self (by rw [hm]; exact hs)
    exact (hstart.run hhost (fun _ _ => .inl) hk).kept.widens.addsNames
  cases s with
  | assign target =>
    cases target with
    | ident id => exact hconfined (.inl (.inr ⟨rfl, List.mem_singleton_self _⟩))
    | _ => exact hconfined trivial
  | change target =>
    cases target with
    | ident id =>
      -- the name is not one of its own: it must be bound before it is changed
      by_cases hdefined : m.store.isDefined env id.name = true
      · exact hconfined (.inr hdefined)
      · rw [store_run_change hm hdefined hk]
        exact Store.widens_refl.addsNames
    | _ => exact hconfined trivial
  | counted counter => exact hconfined (.inl (.inr ⟨rfl, List.mem_singleton_self _⟩))
  | define name => exact hconfined (.inr ⟨rfl, List.mem_singleton_self _⟩)
  | _ => exact hconfined trivial

/-- What is begun above the frames of a machine binds only names of scopes of
its own. -/
theorem keepsNames_run (hhost : host.KeepsNames) {st : Store}
    (h : m.Confined (fun ref _ => st.scopes.size ≤ ref.index) st m.frames)
    (hk : m.Inside host settings k) : st.KeepsNames (m.run host settings k).store :=
  (h.run hhost (fun _ _ hnew => hnew) hk).kept.widens.keepsNames

/-- **Block scoping.**  Let the answers of the host keep the names of all scopes.
Let `m` be any machine, after `k` steps in which what it began was not yet left.

* If `m` began with an expression, every scope that was there binds the names
  it bound before.
* So it does if `m` began to run a block in a scope of its own.
* If `m` began with a statement, the scope where it is run has lost no name,
  and has got none but the statement's own; all other scopes that were there
  bind the names they bound before. -/
theorem block_scoping (host : Host σ) (hhost : host.KeepsNames) (settings : Settings)
    (m : Machine σ) (env : Env) (k : Nat) :
    (∀ e, m.control = .expr e env → m.Inside host settings k →
      m.store.KeepsNames (m.run host settings k).store) ∧
    (∀ f b, (m.pushBlock f b env).Inside host settings k →
      m.store.KeepsNames ((m.pushBlock f b env).run host settings k).store) ∧
    ∀ s, m.control = .stmt s env → m.Inside host settings k →
      m.store.AddsNames env.here s.ownNames (m.run host settings k).store := by
  refine ⟨fun e hm hk => ?_, fun f b hk => ?_, fun s hm hk => addsNames_run hhost hm hk⟩
  · exact keepsNames_run hhost (confined_self (by rw [hm]; trivial)) hk
  · refine keepsNames_run hhost ?_ hk
    exact ⟨⟨Store.widens_enter env, [], rfl, nofun⟩, fun _ => Nat.le_refl _⟩

/-- A block that assigns `y`. -/
def assignsY : Block :=
  ⟨[.assign (.ident ⟨"y", default⟩) (.int 1 default) default], default⟩

/-- Begins to assign to `x` what a function gives whose body assigns `y`. -/
def assignsCall : Machine Console :=
  load (Session.new {}) ⟨[.assign (.ident ⟨"x", default⟩)
    (.call (.function ⟨[], assignsY, default⟩) [] default) default], default⟩

/-- The statement ends after twelve steps, its right side after eleven, and the
block by itself after six.  Only `x` is new in the outermost scope. -/
theorem block_scoping_call :
    (assignsCall.Inside Console.host {} 12 ∧
      assignsCall.store.AddsNames ⟨0⟩ ["x"] (assignsCall.run Console.host {} 12).store) ∧
    ((assignsCall.step Console.host {}).Inside Console.host {} 10 ∧
      (assignsCall.step Console.host {}).store.KeepsNames
        ((assignsCall.step Console.host {}).run Console.host {} 10).store) ∧
    (assignsCall.pushBlock (.settle default) assignsY default).Inside Console.host {} 6 ∧
    assignsCall.store.KeepsNames
      ((assignsCall.pushBlock (.settle default) assignsY default).run Console.host {} 6).store := by
  have hstmt : assignsCall.Inside Console.host {} 12 := by decide +kernel
  have hexpr : (assignsCall.step Console.host {}).Inside Console.host {} 10 := by decide +kernel
  have hblock : (assignsCall.pushBlock (.settle default) assignsY default).Inside Console.host {}
      6 := by decide +kernel
  have hscoping := block_scoping Console.host Console.keepsNames_host {}
  exact ⟨⟨hstmt, (hscoping assignsCall default 12).2.2 _ rfl hstmt⟩,
    ⟨hexpr, (hscoping (assignsCall.step Console.host {}) default 10).1 _ rfl hexpr⟩,
    hblock, (hscoping assignsCall default 6).2.1 _ _ hblock⟩

end Machine

end Dncl
