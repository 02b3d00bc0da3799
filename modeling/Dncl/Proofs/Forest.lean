/-
Dncl/Proofs/Forest.lean

Scopes are nested maps.

Scopes are made one after the other, alone or inside another, and names are
bound in them in between.  They form a forest: every scope has one chain of
scopes around it, all older than itself.  A name means its innermost binding
on the chain.  An assignment changes this one binding, or makes one in the
innermost scope, and is seen exactly from where that binding is the innermost
one:

    get? t n (after) = if n = name ∧ innermost t name = o then v else get? t n (before).

Design.  Looking up a name is a search for the first value along the chain
(`get?_eq_findSome?`), so what a new binding does to it is an induction on the
chain (`findSome?_bind`).  That the scope which is written to exists is the
only thing that has to be known of the forest for this.
-/
import Mathlib.Data.List.Nodup
import Dncl.Proofs.Counters

namespace Dncl

namespace Store

/-! ### Forests -/

/-- The environments that were made in a store, the latest first.  At first
there are no scopes; arrays and functions may be there. -/
inductive Forest : Store → List Env → Prop
  | start (st : Store) : st.scopes = #[] → Forest st []
  | newEnv {st : Store} {envs : List Env} : Forest st envs →
      Forest st.newEnv.2 (st.newEnv.1 :: envs)
  | enter {st : Store} {envs : List Env} {env : Env} : Forest st envs → env ∈ envs →
      Forest (st.enter env).2 ((st.enter env).1 :: envs)
  | define {st : Store} {envs : List Env} {env : Env} (name : String) (v : Value) :
      Forest st envs → env ∈ envs → Forest (st.define env name v) envs
  | assign {st : Store} {envs : List Env} {env : Env} (name : String) (v : Value) :
      Forest st envs → env ∈ envs → Forest (st.assign env name v) envs

/-- The chains of a forest: each begins with a scope that exists, goes on to
older scopes only, and behind its first scope it is a chain of the forest
again.  No two begin with the same scope. -/
structure Chained (st : Store) (envs : List Env) : Prop where
  here : ∀ env ∈ envs, env.here.index < st.scopes.size
  older : ∀ env ∈ envs, env.chain.Pairwise fun inner outer => outer.index < inner.index
  outer : ∀ env ∈ envs, env.outer = [] ∨ ∃ e ∈ envs, e.chain = env.outer
  unique : ∀ env ∈ envs, ∀ e ∈ envs, env.here = e.here → env = e

section Chained

variable {st st' : Store} {envs : List Env} {env : Env}

/-- All scopes of a chain exist. -/
theorem Chained.index_lt (h : st.Chained envs) (henv : env ∈ envs) {ref : ScopeRef}
    (href : ref ∈ env.chain) : ref.index < st.scopes.size := by
  rcases List.mem_cons.1 href with rfl | houter
  · exact h.here env henv
  · exact Nat.lt_trans (List.rel_of_pairwise_cons (h.older env henv) houter) (h.here env henv)

/-- A new scope, alone or inside an environment of the forest. -/
theorem Chained.cons (h : st.Chained envs) (hsize : st'.scopes.size = st.scopes.size + 1)
    {outer : List ScopeRef} (houter : outer = [] ∨ ∃ e ∈ envs, e.chain = outer) :
    st'.Chained (⟨⟨st.scopes.size⟩, outer⟩ :: envs) where
  here := by
    refine List.forall_mem_cons.2 ⟨?_, fun e he => ?_⟩
    · rw [hsize]
      exact Nat.lt_succ_self _
    · rw [hsize]
      exact Nat.lt_succ_of_lt (h.here e he)
  older := by
    refine List.forall_mem_cons.2 ⟨?_, h.older⟩
    rcases houter with rfl | ⟨e, he, rfl⟩
    · exact List.pairwise_singleton _ _
    · exact List.pairwise_cons.2 ⟨fun ref href => h.index_lt he href, h.older e he⟩
  outer := by
    have hmore {o : List ScopeRef} (ho : o = [] ∨ ∃ e ∈ envs, e.chain = o) :
        o = [] ∨ ∃ e ∈ (⟨⟨st.scopes.size⟩, outer⟩ :: envs : List Env), e.chain = o :=
      ho.imp_right fun ⟨e, he, heq⟩ => ⟨e, List.mem_cons_of_mem _ he, heq⟩
    exact List.forall_mem_cons.2 ⟨hmore houter, fun e he => hmore (h.outer e he)⟩
  unique := by
    -- the new scope is the first one of no other chain
    have hnew {e : Env} (he : e ∈ envs) : e.here ≠ ⟨st.scopes.size⟩ := by
      intro heq
      have hlt := h.here e he
      rw [heq] at hlt
      exact Nat.lt_irrefl _ hlt
    refine List.forall_mem_cons.2 ⟨?_, fun e he => ?_⟩
    · exact List.forall_mem_cons.2 ⟨fun _ => rfl, fun e he heq => absurd heq.symm (hnew he)⟩
    · exact List.forall_mem_cons.2 ⟨fun heq => absurd heq (hnew he), h.unique e he⟩

theorem Chained.bind (h : st.Chained envs) (ref : ScopeRef) (name : String) (v : Value) :
    (st.bind ref name v).Chained envs where
  here env henv := by
    rw [size_bind]
    exact h.here env henv
  older := h.older
  outer := h.outer
  unique := h.unique

theorem Forest.chained (h : Forest st envs) : st.Chained envs := by
  induction h with
  | start st _ => exact ⟨by nofun, by nofun, by nofun, by nofun⟩
  | newEnv _ ih => exact ih.cons (Array.size_push _) (.inl rfl)
  | enter _ henv ih => exact ih.cons (Array.size_push _) (.inr ⟨_, henv, rfl⟩)
  | define name v _ _ ih => exact ih.bind _ name v
  | assign name v _ _ ih =>
    rw [assign_eq_owner?]
    exact ih.bind _ name v

theorem Chained.nodup (h : st.Chained envs) (henv : env ∈ envs) : env.chain.Nodup := by
  refine (h.older env henv).imp ?_
  rintro inner outer hlt rfl
  exact Nat.lt_irrefl _ hlt

/-- A chain is no longer than there are scopes. -/
theorem Chained.length_le (h : st.Chained envs) (henv : env ∈ envs) :
    env.chain.length ≤ st.scopes.size := by
  have hindices : (env.chain.map ScopeRef.index).Nodup := by
    refine List.pairwise_map.2 ((h.older env henv).imp ?_)
    exact fun hlt => Nat.ne_of_gt hlt
  have hsub : env.chain.map ScopeRef.index ⊆ List.range st.scopes.size :=
    List.forall_mem_map.2 fun ref href => List.mem_range.2 (h.index_lt henv href)
  have hle := (hindices.subperm hsub).length_le
  rwa [List.length_map, List.length_range] at hle

/-- From each of its scopes on, a chain is the chain of that scope. -/
theorem Chained.exists_suffix (h : st.Chained envs) (henv : env ∈ envs) {ref : ScopeRef}
    (href : ref ∈ env.chain) : ∃ e ∈ envs, e.here = ref ∧ e.chain <:+ env.chain := by
  obtain ⟨here, outer⟩ := env
  induction outer generalizing here with
  | nil =>
    obtain rfl := List.mem_singleton.1 href
    exact ⟨_, henv, rfl, List.suffix_refl _⟩
  | cons next outer ih =>
    rcases List.mem_cons.1 href with rfl | href
    · exact ⟨_, henv, rfl, List.suffix_refl _⟩
    · obtain ⟨e, he, hchain⟩ := (h.outer _ henv).resolve_left (List.cons_ne_nil next outer)
      obtain rfl : e = ⟨next, outer⟩ := by
        obtain ⟨here', outer'⟩ := e
        obtain ⟨rfl, rfl⟩ := List.cons.inj hchain
        rfl
      obtain ⟨e', he', hhere, hsuffix⟩ := ih next he href
      exact ⟨e', he', hhere, hsuffix.trans (List.suffix_cons _ _)⟩

end Chained

/-! ### Innermost bindings -/

/-- The scope is the first of the list that binds the name. -/
def Innermost (st : Store) (name : String) (refs : List ScopeRef) (ref : ScopeRef) : Prop :=
  ∃ inner outer, refs = inner ++ ref :: outer ∧
    (∀ r ∈ inner, (st.scope r).binds name = false) ∧ (st.scope ref).binds name = true

section Innermost

variable {st : Store} {name : String} {refs : List ScopeRef} {ref : ScopeRef}

theorem owner?_eq_none_iff :
    st.owner? name refs = none ↔ ∀ r ∈ refs, (st.scope r).binds name = false := by
  induction refs with
  | nil => exact iff_of_true rfl (by simp)
  | cons r refs ih =>
    rw [owner?, List.forall_mem_cons, ← ih]
    cases (st.scope r).binds name <;> simp

theorem owner?_eq_some_iff : st.owner? name refs = some ref ↔ st.Innermost name refs ref := by
  constructor
  · intro h
    induction refs with
    | nil => cases h
    | cons r refs ih =>
      rw [owner?] at h
      split at h
      · rename_i hbinds
        cases h
        exact ⟨[], refs, rfl, by simp, hbinds⟩
      · rename_i hfree
        obtain ⟨inner, outer, rfl, hinner, hbinds⟩ := ih h
        refine ⟨r :: inner, outer, rfl, List.forall_mem_cons.2 ⟨?_, hinner⟩, hbinds⟩
        exact Bool.eq_false_iff.2 hfree
  · rintro ⟨inner, outer, rfl, hinner, hbinds⟩
    induction inner with
    | nil => exact if_pos hbinds
    | cons r inner ih =>
      obtain ⟨hr, hinner⟩ := List.forall_mem_cons.1 hinner
      rw [List.cons_append, owner?, hr, if_neg Bool.false_ne_true]
      exact ih hinner

/-- The value of a name is the first one along the chain. -/
theorem get?_eq_findSome? (st : Store) (env : Env) (name : String) :
    st.get? env name = env.chain.findSome? fun r => (st.scope r).get? name := by
  rw [get?]
  induction env.chain with
  | nil => rfl
  | cons r refs ih =>
    rw [lookup?, List.findSome?_cons, ih]
    cases (st.scope r).get? name <;> rfl

/-- A name is defined exactly if it has a value. -/
theorem isDefined_iff_get? (st : Store) (env : Env) (name : String) :
    st.isDefined env name = true ↔ ∃ v, st.get? env name = some v := by
  rw [isDefined_iff, get?_eq_findSome?, ← Option.isSome_iff_exists, List.findSome?_isSome_iff]
  exact Iff.rfl

end Innermost

/-! ### One new binding -/

section Bind

variable {st : Store} {o : ScopeRef}

/-- In a scope that exists, a binding changes the value of one name. -/
theorem get?_scope_bind (ho : o.index < st.scopes.size) (name : String) (v : Value)
    (r : ScopeRef) (n : String) :
    ((st.bind o name v).scope r).get? n =
      if r = o ∧ n = name then some v else (st.scope r).get? n := by
  by_cases hr : r = o
  · subst hr
    rw [scope_bind_self ho, Scope.get?_set]
    simp only [true_and, eq_comm]
  · rw [scope_bind_of_ne hr, if_neg fun h => hr h.1]

/-- A search along scopes finds the new value if it comes to the new binding
first, and what it found before otherwise. -/
theorem findSome?_bind (ho : o.index < st.scopes.size) (name : String) (v : Value)
    (refs : List ScopeRef) :
    (refs.findSome? fun r => ((st.bind o name v).scope r).get? name) =
      if (st.bind o name v).owner? name refs = some o then some v
      else refs.findSome? fun r => (st.scope r).get? name := by
  induction refs with
  | nil => rfl
  | cons r refs ih =>
    rw [List.findSome?_cons, List.findSome?_cons, owner?, Scope.binds,
      get?_scope_bind ho name v r name]
    by_cases hr : r = o
    · subst hr
      simp
    · rw [if_neg fun h => hr h.1]
      cases (st.scope r).get? name with
      | none => exact ih
      | some w => simp [hr]

theorem get?_bind_self (ho : o.index < st.scopes.size) (name : String) (v : Value) (t : Env)
    (h : (st.bind o name v).Innermost name t.chain o) :
    (st.bind o name v).get? t name = some v := by
  rw [get?_eq_findSome?, findSome?_bind ho, if_pos (owner?_eq_some_iff.2 h)]

theorem get?_bind_of_not (ho : o.index < st.scopes.size) (name : String) (v : Value) (t : Env)
    (n : String) (h : ¬ (n = name ∧ (st.bind o name v).Innermost name t.chain o)) :
    (st.bind o name v).get? t n = st.get? t n := by
  rw [get?_eq_findSome?, get?_eq_findSome?]
  by_cases hn : n = name
  · subst hn
    rw [findSome?_bind ho, if_neg fun howner => h ⟨rfl, owner?_eq_some_iff.1 howner⟩]
  · simp only [get?_scope_bind ho, hn, and_false, if_false]

end Bind

/-! ### Main result -/

/-- The scope that an assignment writes to: the innermost one that binds the
name, and the innermost of all if none does. -/
def Assigned (st : Store) (env : Env) (name : String) (o : ScopeRef) : Prop :=
  st.Innermost name env.chain o ∨
    o = env.here ∧ ∀ r ∈ env.chain, (st.scope r).binds name = false

/-- An assignment binds the name in the scope that it writes to. -/
theorem exists_assigned (st : Store) (env : Env) (name : String) :
    ∃ o ∈ env.chain, st.Assigned env name o ∧ ∀ v, st.assign env name v = st.bind o name v := by
  cases howner : st.owner? name env.chain with
  | none =>
    refine ⟨env.here, List.mem_cons_self, .inr ⟨rfl, owner?_eq_none_iff.1 howner⟩, fun v => ?_⟩
    rw [assign_eq_owner?, howner]
    rfl
  | some o =>
    refine ⟨o, (mem_of_owner? howner).1, .inl (owner?_eq_some_iff.1 howner), fun v => ?_⟩
    rw [assign_eq_owner?, howner]
    rfl

/-- A name that was assigned has the value, if the scope that is written to
exists: the innermost one, or one that has bound the name. -/
theorem get?_assign_self {st : Store} {env : Env} {name : String}
    (h : env.here.index < st.scopes.size ∨ st.isDefined env name = true) (v : Value) :
    (st.assign env name v).get? env name = some v := by
  obtain ⟨o, -, hassigned, heq⟩ := st.exists_assigned env name
  rw [heq v]
  rcases hassigned with ⟨inner, outer, hchain, hinner, hbinds⟩ | ⟨rfl, hfree⟩
  · -- an outer scope has the name, and the scopes before it have not
    have ho : o.index < st.scopes.size := by
      refine Nat.lt_of_not_le fun hle => ?_
      rw [binds_of_size_le hle] at hbinds
      cases hbinds
    refine get?_bind_self ho name v env ⟨inner, outer, hchain, fun r hr => ?_, ?_⟩
    · have hne : r ≠ o := by
        rintro rfl
        rw [hinner r hr] at hbinds
        cases hbinds
      rw [scope_bind_of_ne hne]
      exact hinner r hr
    · rw [scope_bind_self ho]
      exact Scope.binds_set.2 (.inr rfl)
  · -- no scope has it, so it is bound here
    have ho : env.here.index < st.scopes.size := by
      refine h.resolve_right fun hdefined => ?_
      obtain ⟨r, hr, hbinds⟩ := isDefined_iff.1 hdefined
      rw [hfree r hr] at hbinds
      cases hbinds
    refine get?_bind_self ho name v env ⟨[], env.outer, rfl, by simp, ?_⟩
    rw [scope_bind_self ho]
    exact Scope.binds_set.2 (.inr rfl)

/-- **Scope chains behave as nested maps.**  Let `envs` be the environments that
were made in a store, with any definitions and assignments in between.

* Every chain goes through no scope twice and is no longer than there are scopes;
  from each of its scopes on it is the chain of that scope, and no scope has two.
* A name is defined exactly if it has a value.
* An assignment changes one binding, of the name in the scope that it writes to,
  and makes no scope.  Afterwards the name has the new value in all environments
  in which this scope is the innermost one that binds it; otherwise a name has
  the value that it had before, in every environment. -/
theorem scopes_are_nested_maps (st : Store) (envs : List Env) (h : Forest st envs) :
    ((∀ env ∈ envs, env.chain.Nodup ∧ env.chain.length ≤ st.scopes.size ∧
        ∀ ref ∈ env.chain, ∃ e ∈ envs, e.here = ref ∧ e.chain <:+ env.chain) ∧
      ∀ env ∈ envs, ∀ e ∈ envs, env.here = e.here → env = e) ∧
    (∀ env name, st.isDefined env name = true ↔ ∃ v, st.get? env name = some v) ∧
    ∀ env ∈ envs, ∀ name v, ∃ o, st.Assigned env name o ∧
      (st.assign env name v).scopes.size = st.scopes.size ∧
      (∀ ref n, ((st.assign env name v).scope ref).get? n =
        if ref = o ∧ n = name then some v else (st.scope ref).get? n) ∧
      ∀ t n,
        ((n = name ∧ (st.assign env name v).Innermost name t.chain o) →
          (st.assign env name v).get? t n = some v) ∧
        (¬ (n = name ∧ (st.assign env name v).Innermost name t.chain o) →
          (st.assign env name v).get? t n = st.get? t n) := by
  have hchained := h.chained
  refine ⟨⟨fun env henv => ?_, hchained.unique⟩, st.isDefined_iff_get?, fun env henv name v => ?_⟩
  · exact ⟨hchained.nodup henv, hchained.length_le henv, fun _ => hchained.exists_suffix henv⟩
  · obtain ⟨o, hmem, hassigned, heq⟩ := st.exists_assigned env name
    have ho := hchained.index_lt henv hmem
    refine ⟨o, hassigned, ?_⟩
    rw [heq v]
    refine ⟨size_bind .., get?_scope_bind ho name v,
      fun t n => ⟨?_, get?_bind_of_not ho name v t n⟩⟩
    rintro ⟨rfl, hinner⟩
    exact get?_bind_self ho n v t hinner

/-- A scope that binds `x`, two scopes inside it, of which the second binds `x`
again, and one inside the first of them. -/
def shadowed : Store :=
  (((((Store.empty.newEnv.2.define ⟨⟨0⟩, []⟩ "x" (.int 1 default)).enter ⟨⟨0⟩, []⟩).2.enter
    ⟨⟨0⟩, []⟩).2.define ⟨⟨2⟩, [⟨0⟩]⟩ "x" (.int 2 default)).enter ⟨⟨1⟩, [⟨0⟩]⟩).2

/-- The assignment in the innermost scope reaches the outermost one.  It is seen
from everywhere but from where `x` is shadowed. -/
theorem scopes_are_nested_maps_shadowed :
    Forest shadowed [⟨⟨3⟩, [⟨1⟩, ⟨0⟩]⟩, ⟨⟨2⟩, [⟨0⟩]⟩, ⟨⟨1⟩, [⟨0⟩]⟩, ⟨⟨0⟩, []⟩] ∧
    (shadowed.assign ⟨⟨3⟩, [⟨1⟩, ⟨0⟩]⟩ "x" (.int 7 default)).get? ⟨⟨1⟩, [⟨0⟩]⟩ "x" =
      some (.int 7 default) ∧
    (shadowed.assign ⟨⟨3⟩, [⟨1⟩, ⟨0⟩]⟩ "x" (.int 7 default)).get? ⟨⟨2⟩, [⟨0⟩]⟩ "x" =
      some (.int 2 default) := by
  have hroot : Forest Store.empty.newEnv.2 [⟨⟨0⟩, []⟩] := .newEnv (.start .empty rfl)
  have hfirst : Forest ((Store.empty.newEnv.2.define ⟨⟨0⟩, []⟩ "x" (.int 1 default)).enter
      ⟨⟨0⟩, []⟩).2 [⟨⟨1⟩, [⟨0⟩]⟩, ⟨⟨0⟩, []⟩] :=
    .enter (.define "x" _ hroot List.mem_cons_self) List.mem_cons_self
  have hsecond : Forest (((Store.empty.newEnv.2.define ⟨⟨0⟩, []⟩ "x" (.int 1 default)).enter
      ⟨⟨0⟩, []⟩).2.enter ⟨⟨0⟩, []⟩).2 [⟨⟨2⟩, [⟨0⟩]⟩, ⟨⟨1⟩, [⟨0⟩]⟩, ⟨⟨0⟩, []⟩] :=
    .enter hfirst (List.mem_cons_of_mem _ List.mem_cons_self)
  have hforest : Forest shadowed
      [⟨⟨3⟩, [⟨1⟩, ⟨0⟩]⟩, ⟨⟨2⟩, [⟨0⟩]⟩, ⟨⟨1⟩, [⟨0⟩]⟩, ⟨⟨0⟩, []⟩] :=
    .enter (.define "x" _ hsecond List.mem_cons_self) (List.mem_cons_of_mem _ List.mem_cons_self)
  obtain ⟨o, hassigned, -, -, hget⟩ := (scopes_are_nested_maps _ _ hforest).2.2 ⟨⟨3⟩, [⟨1⟩, ⟨0⟩]⟩
    List.mem_cons_self "x" (.int 7 default)
  -- the outermost scope is written to
  obtain rfl : o = ⟨0⟩ := by
    rcases hassigned with hinner | ⟨-, hfree⟩
    · exact (Option.some.inj (owner?_eq_some_iff.2 hinner)).symm
    · cases hfree ⟨0⟩ (by simp [Env.chain])
  refine ⟨hforest, (hget ⟨⟨1⟩, [⟨0⟩]⟩ "x").1 ⟨rfl, owner?_eq_some_iff.1 rfl⟩, ?_⟩
  refine ((hget ⟨⟨2⟩, [⟨0⟩]⟩ "x").2 ?_).trans rfl
  rintro ⟨-, hinner⟩
  cases owner?_eq_some_iff.2 hinner

end Store

end Dncl
