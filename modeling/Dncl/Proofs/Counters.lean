/-
Dncl/Proofs/Counters.lean

The variables of counted loops, and the scopes that they live in.

A program *owns its counters* if the variable of each counted loop is written
nowhere else in its text.  While it runs, such a variable is bound only in a
scope that was made for the statements among which the loop stands, and while
the loop runs, nothing but the loop changes it.

Design.  `deeds` lists what a text does to names, and its loops.  A chart says
which counters belong to which scope; it is not part of the machine, and grows
when a scope is made.  `Store.Charted` ties it to the store: a counter is bound
only where it belongs, and no function sees a scope to which one of its own
counters belongs.  `Runnable` says that code may be run in an environment: its
outermost counters belong to the innermost scope, and are not bound yet, and
its other counters belong to none of the scopes.  `Store.Evolves` is what running
code does to the store, and code that is runnable somewhere still is
afterwards (`Runnable.after`).
-/
import Mathlib.Data.List.Nodup
import Dncl.Proofs.Alike

namespace Dncl

variable {name : String}

/-! ### What a text does to names -/

/-- A loop, or something that writes to a name. -/
inductive Deed where
  /-- A counted loop, with its variable. -/
  | counts (name : String)
  /-- An assignment, a change, a parameter, or the definition of a function. -/
  | writes (name : String)
  /-- A loop that tests a condition. -/
  | repeats
  deriving DecidableEq

/-- The name that is written to. -/
def Deed.target? : Deed → Option String
  | counts name | writes name => some name
  | repeats => none

/-- The variable of a counted loop. -/
def Deed.counter? : Deed → Option String
  | counts name => some name
  | writes _ | repeats => none

/-- The variable that a target stands for, if it is one. -/
def Expr.written : Expr → List Deed
  | .ident id => [.writes id.name]
  | _ => []

mutual

def Expr.deeds : Expr → List Deed
  | .ident _ | .int _ _ | .str _ _ | .absent _ | .command _ _ => []
  | .array elements _ => Expr.deedsAll elements
  | .prefixOp _ operand _ => operand.deeds
  | .infixOp _ left right _ => left.deeds ++ right.deeds
  | .index container position _ => container.deeds ++ position.deeds
  | .call callee arguments _ => callee.deeds ++ Expr.deedsAll arguments
  | .builtin _ arguments _ => Expr.deedsAll arguments
  | .function literal => literal.deeds
  | .nested inner _ => inner.deeds

def Expr.deedsAll : List Expr → List Deed
  | [] => []
  | e :: es => e.deeds ++ Expr.deedsAll es

def FunctionLit.deeds : FunctionLit → List Deed
  | ⟨params, body, _⟩ => params.map (fun p => .writes p.name) ++ body.deeds

def Block.deeds : Block → List Deed
  | ⟨statements, _⟩ => Stmt.deedsAll statements

/-- All loops in a statement, and all that it writes to names, functions
included. -/
def Stmt.deeds : Stmt → List Deed
  | .expr e => e.deeds
  | .assign target value _ => target.written ++ (target.deeds ++ value.deeds)
  | .conditional c => c.deeds
  | .counted counter first last step _ body _ =>
    .counts counter.name :: (first.deeds ++ (last.deeds ++ (step.deeds ++ body.deeds)))
  | .whileLoop condition body _ => .repeats :: (condition.deeds ++ body.deeds)
  | .untilLoop body condition _ => .repeats :: (body.deeds ++ condition.deeds)
  | .change target amount _ _ => target.written ++ (target.deeds ++ amount.deeds)
  | .define name function _ => .writes name.name :: function.deeds
  | .giveBack value _ => value.deeds

def Stmt.deedsAll : List Stmt → List Deed
  | [] => []
  | s :: ss => s.deeds ++ Stmt.deedsAll ss

def Conditional.deeds : Conditional → List Deed
  | ⟨condition, consequence, alternative, _⟩ =>
    condition.deeds ++ (consequence.deeds ++ alternative.deeds)

def ElseBranch.deeds : ElseBranch → List Deed
  | .missing => []
  | .elseIf c => c.deeds
  | .otherwise b => b.deeds

end

/-- All loops in a program, and all that it writes to names. -/
def Program.deeds (p : Program) : List Deed :=
  Stmt.deedsAll p.statements

/-- The variables of counted loops among some deeds. -/
def countersOf (ds : List Deed) : List String :=
  ds.filterMap Deed.counter?

/-- No loop of the program tests a condition. -/
def Program.OnlyCounts (p : Program) : Prop :=
  .repeats ∉ p.deeds

/-- The variable of each counted loop is written nowhere else in the program. -/
def Program.OwnsCounters (p : Program) : Prop :=
  ∀ name ∈ countersOf p.deeds, p.deeds.countP (fun d => d.target? = some name) = 1

instance (p : Program) : Decidable p.OnlyCounts :=
  inferInstanceAs (Decidable (.repeats ∉ p.deeds))

instance (p : Program) : Decidable p.OwnsCounters :=
  inferInstanceAs (Decidable (∀ name ∈ countersOf p.deeds, _ = 1))

@[simp] theorem countersOf_append (ds ds' : List Deed) :
    countersOf (ds ++ ds') = countersOf ds ++ countersOf ds' :=
  List.filterMap_append

theorem mem_countersOf {ds : List Deed} : name ∈ countersOf ds ↔ .counts name ∈ ds := by
  rw [countersOf, List.mem_filterMap]
  constructor
  · rintro ⟨d, hd, hname⟩
    cases d with
    | counts n =>
      obtain rfl : n = name := Option.some.inj hname
      exact hd
    | writes | repeats => cases hname
  · exact fun h => ⟨_, h, rfl⟩

/-! ### Statements and what is inside them -/

/-- The variable of a statement that is a counted loop. -/
def Stmt.own : Stmt → List String
  | .counted counter _ _ _ _ _ _ => [counter.name]
  | _ => []

/-- What is done inside a statement. -/
def Stmt.inner : Stmt → List Deed
  | .counted _ first last step _ body _ =>
    first.deeds ++ (last.deeds ++ (step.deeds ++ body.deeds))
  | s => s.deeds

def Stmt.ownAll (ss : List Stmt) : List String :=
  ss.flatMap Stmt.own

def Stmt.innerAll (ss : List Stmt) : List Deed :=
  ss.flatMap Stmt.inner

theorem Stmt.countersOf_deeds (s : Stmt) :
    countersOf s.deeds = s.own ++ countersOf s.inner := by
  cases s <;> rfl

theorem Stmt.inner_sublist (s : Stmt) : s.inner.Sublist s.deeds := by
  cases s with
  | counted => exact List.sublist_cons_self _ _
  | _ => exact List.Sublist.refl _

theorem Stmt.innerAll_sublist (ss : List Stmt) :
    (Stmt.innerAll ss).Sublist (Stmt.deedsAll ss) := by
  induction ss with
  | nil => exact List.Sublist.refl _
  | cons s ss ih => exact s.inner_sublist.append ih

/-- Each counter is that of one of the statements, or is inside one. -/
theorem Stmt.countersOf_deedsAll (ss : List Stmt) :
    (countersOf (Stmt.deedsAll ss)).Perm
      (Stmt.ownAll ss ++ countersOf (Stmt.innerAll ss)) := by
  induction ss with
  | nil => exact List.Perm.refl _
  | cons s ss ih =>
    rw [Stmt.deedsAll, Stmt.ownAll, Stmt.innerAll, List.flatMap_cons, List.flatMap_cons,
      countersOf_append, countersOf_append, s.countersOf_deeds, List.append_assoc,
      List.append_assoc]
    refine List.Perm.append_left _ ?_
    refine (List.Perm.append_left _ ih).trans ?_
    rw [← List.append_assoc, ← List.append_assoc]
    exact List.Perm.append_right _ List.perm_append_comm

/-! ### Texts that own their counters -/

/-- Some deeds of a program with the counters `V`: its loops are counted, each
counter is counted once, and none is written otherwise. -/
structure Tame (V : String → Prop) (ds : List Deed) : Prop where
  onlyCounts : .repeats ∉ ds
  counters : ∀ n, .counts n ∈ ds → V n
  others : ∀ n, .writes n ∈ ds → ¬ V n
  once : (countersOf ds).Nodup

section Tame

variable {V : String → Prop} {ds ds' : List Deed}

theorem Tame.sublist (h : Tame V ds) (hsub : ds'.Sublist ds) : Tame V ds' where
  onlyCounts hmem := h.onlyCounts (hsub.subset hmem)
  counters n hmem := h.counters n (hsub.subset hmem)
  others n hmem := h.others n (hsub.subset hmem)
  once := h.once.sublist (hsub.filterMap _)

theorem tame_nil : Tame V [] :=
  ⟨List.not_mem_nil, nofun, nofun, List.nodup_nil⟩

/-- The counters of statements are told from those inside them. -/
theorem Tame.disjoint {ss : List Stmt} (h : Tame V (Stmt.deedsAll ss)) :
    (Stmt.ownAll ss).Nodup ∧ (Stmt.ownAll ss).Disjoint (countersOf (Stmt.innerAll ss)) := by
  have hnodup := (Stmt.countersOf_deedsAll ss).nodup_iff.1 h.once
  exact ⟨(List.nodup_append'.1 hnodup).1, (List.nodup_append'.1 hnodup).2.2⟩

/-- A program that owns its counters is tame. -/
theorem Program.tame {p : Program} (hcounts : p.OnlyCounts) (howns : p.OwnsCounters) :
    Tame (fun n => .counts n ∈ p.deeds) p.deeds where
  onlyCounts := hcounts
  counters _ h := h
  others n hwrites hcounted := by
    -- the loop and the other deed would be two
    have hone := howns n (mem_countersOf.2 hcounted)
    have hmem : Deed.writes n ∈ p.deeds.erase (.counts n) :=
      (List.mem_erase_of_ne (by nofun)).2 hwrites
    have hpos : 0 < (p.deeds.erase (.counts n)).countP (fun d => d.target? = some n) :=
      List.countP_pos_iff.2 ⟨_, hmem, by simp [Deed.target?]⟩
    rw [(List.perm_cons_erase hcounted).countP_eq,
      List.countP_cons_of_pos (by simp [Deed.target?])] at hone
    omega
  once := by
    rw [List.nodup_iff_count_le_one]
    intro n
    by_cases hmem : n ∈ countersOf p.deeds
    · have hone := howns n hmem
      rw [countersOf, List.count_filterMap, ← hone]
      refine List.countP_mono_left fun d _ hd => ?_
      cases d with
      | counts m => simpa [Deed.counter?, Deed.target?] using hd
      | writes | repeats => simp [Deed.counter?] at hd
    · rw [List.count_eq_zero_of_not_mem hmem]
      exact Nat.zero_le _

end Tame

/-! ### Charts -/

/-- Which counters belong to which scopes. -/
abbrev Chart : Type :=
  ScopeRef → String → Prop

/-- The scopes of the environment are there, and none of the counters belongs
to one of them. -/
def Env.Avoids (A : Chart) (st : Store) (env : Env) (names : List String) : Prop :=
  ∀ n ∈ names, ∀ s ∈ env.chain, s.index < st.scopes.size ∧ ¬ A s n

/-- The chart is right about a store: counters are bound only where they belong,
and no function sees a scope to which one of its own counters belongs. -/
structure Store.Charted (V : String → Prop) (A : Chart) (st : Store) : Prop where
  bound : ∀ s n, V n → (st.scope s).binds n = true → A s n
  here : ∀ s n, A s n → s.index < st.scopes.size
  tame : ∀ ref, Tame V (st.closure ref).literal.deeds
  avoids : ∀ ref, (st.closure ref).env.Avoids A st (countersOf (st.closure ref).literal.deeds)

/-- What running code does to the store, where `P` says which counters it may
change.  The chart is that of the store before, with new scopes. -/
structure Store.Evolves (V : String → Prop) (P A A' : Chart) (st st' : Store) : Prop where
  charted : st'.Charted V A'
  size : st.scopes.size ≤ st'.scopes.size
  agrees : ∀ s n, s.index < st.scopes.size → (A' s n ↔ A s n)
  keeps : ∀ s n, s.index < st.scopes.size → V n → ¬ P s n →
    (st'.scope s).get? n = (st.scope s).get? n

section Charts

variable {V : String → Prop} {P Q A A' A'' : Chart} {st st' st'' : Store} {env : Env}
  {names : List String}

theorem Env.Avoids.mono (h : env.Avoids A st names) {more : List String} (hsub : more ⊆ names) :
    env.Avoids A st more :=
  fun n hn => h n (hsub hn)

theorem Env.Avoids.after (h : env.Avoids A st names) (he : st.Evolves V P A A' st') :
    env.Avoids A' st' names := by
  intro n hn s hs
  obtain ⟨hlt, hfree⟩ := h n hn s hs
  exact ⟨hlt.trans_le he.size, fun hA => hfree ((he.agrees s n hlt).1 hA)⟩

namespace Store

theorem Charted.evolves_refl (h : st.Charted V A) : st.Evolves V P A A st :=
  ⟨h, Nat.le_refl _, fun _ _ _ => Iff.rfl, fun _ _ _ _ _ => rfl⟩

theorem Evolves.trans (h : st.Evolves V P A A' st') (h' : st'.Evolves V Q A' A'' st'')
    (hP : ∀ s n, s.index < st.scopes.size → Q s n → P s n) : st.Evolves V P A A'' st'' where
  charted := h'.charted
  size := h.size.trans h'.size
  agrees s n hlt := (h'.agrees s n (hlt.trans_le h.size)).trans (h.agrees s n hlt)
  keeps s n hlt hV hfree := by
    rw [h'.keeps s n (hlt.trans_le h.size) hV (mt (hP s n hlt) hfree), h.keeps s n hlt hV hfree]

theorem Evolves.mono (h : st.Evolves V Q A A' st') (hP : ∀ s n, Q s n → P s n) :
    st.Evolves V P A A' st' :=
  { h with keeps := fun s n hlt hV hfree => h.keeps s n hlt hV (mt (hP s n) hfree) }

/-- The store changes in nothing but its arrays. -/
theorem Charted.evolves_of_eq (h : st.Charted V A) (hscopes : st'.scopes = st.scopes)
    (hclosures : st'.closures = st.closures) : st.Evolves V P A A st' := by
  obtain ⟨scopes, arrays, closures⟩ := st
  obtain ⟨scopes', arrays', closures'⟩ := st'
  subst hscopes hclosures
  exact ⟨⟨h.bound, h.here, h.tame, h.avoids⟩, Nat.le_refl _, fun _ _ _ => Iff.rfl,
    fun _ _ _ _ _ => rfl⟩

theorem mem_of_owner? {refs : List ScopeRef} {ref : ScopeRef} (h : st.owner? name refs = some ref) :
    ref ∈ refs ∧ (st.scope ref).binds name = true := by
  refine ⟨?_, binds_of_owner? h⟩
  induction refs with
  | nil => cases h
  | cons r refs ih =>
    rw [owner?] at h
    split at h
    · cases h
      exact List.mem_cons_self
    · exact List.mem_cons_of_mem _ (ih h)

theorem size_bind (st : Store) (ref : ScopeRef) (name : String) (v : Value) :
    (st.bind ref name v).scopes.size = st.scopes.size :=
  Array.size_modify

/-- A counter is bound only where it belongs. -/
theorem Charted.evolves_bind (h : st.Charted V A) {ref : ScopeRef} (v : Value)
    (hname : V name → A ref name ∧ P ref name) : st.Evolves V P A A (st.bind ref name v) where
  charted :=
    { bound := by
        intro s n hV hbinds
        rcases st.scope_bind ref s name v with hs | hs
        · rw [hs] at hbinds
          exact h.bound s n hV hbinds
        · by_cases hne : s = ref
          · rw [hs, Scope.binds_set] at hbinds
            -- the name was bound before, or is the new one, which the chart allows
            rcases hbinds with hbinds | rfl
            · exact h.bound s n hV hbinds
            · exact hne ▸ (hname hV).1
          · rw [scope_bind_of_ne hne] at hbinds
            exact h.bound s n hV hbinds
      here := by
        rw [size_bind]
        exact h.here
      tame := h.tame
      avoids := by
        intro ref n hn s hs
        rw [size_bind]
        exact h.avoids ref n hn s hs }
  size := (size_bind ..).ge
  agrees _ _ _ := Iff.rfl
  keeps := by
    intro s n _ hV hfree
    by_cases hne : s = ref
    · rcases st.scope_bind ref s name v with hs | hs
      · rw [hs]
      · rw [hs, Scope.get?_set, if_neg]
        rintro rfl
        exact hfree (hne ▸ (hname hV).2)
    · rw [scope_bind_of_ne hne]

/-- A name that is no counter may be bound anywhere. -/
theorem Charted.evolves_write (h : st.Charted V A) {ref : ScopeRef} (v : Value) (hname : ¬ V name) :
    st.Evolves V P A A (st.bind ref name v) :=
  h.evolves_bind v fun hV => absurd hV hname

theorem Charted.evolves_newClosure (h : st.Charted V A) {c : Closure}
    (htame : Tame V c.literal.deeds) (havoids : c.env.Avoids A st (countersOf c.literal.deeds)) :
    st.Evolves V P A A (st.newClosure c).2 where
  charted :=
    { bound := h.bound
      here := h.here
      tame := by
        intro ref
        rw [closure_newClosure]
        split
        · exact htame
        · exact h.tame ref
      avoids := by
        intro ref
        rw [closure_newClosure]
        split
        · exact havoids
        · exact h.avoids ref }
  size := Nat.le_refl _
  agrees _ _ _ := Iff.rfl
  keeps _ _ _ _ _ := rfl

theorem evolves_bindParams (env : Env) (params : List Ident) (arguments : List Value) (st : Store)
    (h : st.Charted V A) (hparams : ∀ p ∈ params, ¬ V p.name) :
    st.Evolves V P A A (Machine.bindParams env params arguments st) := by
  induction params generalizing arguments st with
  | nil => exact h.evolves_refl
  | cons p params ih =>
    cases arguments with
    | nil => exact h.evolves_refl
    | cons v arguments =>
      have hfirst : st.Evolves V P A A (st.define env p.name v) :=
        h.evolves_write v (hparams p List.mem_cons_self)
      exact hfirst.trans
        (ih arguments _ hfirst.charted fun q hq => hparams q (List.mem_cons_of_mem _ hq))
        fun _ _ _ => id

end Store

/-- The chart with a new scope, to which some counters belong. -/
def Chart.withScope (A : Chart) (st : Store) (names : List String) : Chart :=
  fun s n => A s n ∨ s.index = st.scopes.size ∧ n ∈ names

theorem Chart.withScope_old {s : ScopeRef} {n : String} (h : s.index < st.scopes.size) :
    A.withScope st names s n ↔ A s n :=
  or_iff_left fun hnew => h.ne hnew.1

theorem Store.Charted.evolves_push (h : st.Charted V A) (names : List String) :
    st.Evolves V P A (A.withScope st names) { st with scopes := st.scopes.push [] } := by
  have hsize : ({ st with scopes := st.scopes.push [] } : Store).scopes.size =
      st.scopes.size + 1 := Array.size_push _
  refine ⟨⟨fun s n hV hbinds => ?_, fun s n hA => ?_, h.tame, fun ref n hn s hs => ?_⟩, ?_,
    fun s n hlt => Chart.withScope_old hlt, fun s n _ _ _ => ?_⟩
  · rw [scope_push] at hbinds
    exact .inl (h.bound s n hV hbinds)
  · rcases hA with hA | ⟨hs, -⟩
    · exact (h.here s n hA).trans (by omega)
    · omega
  · obtain ⟨hlt, hfree⟩ := h.avoids ref n hn s hs
    exact ⟨hlt.trans (by omega), fun hA => hfree ((Chart.withScope_old hlt).1 hA)⟩
  · omega
  · rw [scope_push]

end Charts

/-! ### Code that may be run -/

/-- A counter belongs to the innermost scope of the environment, and to no
other. -/
structure Env.Owns (V : String → Prop) (A : Chart) (st : Store) (env : Env) (n : String) :
    Prop where
  counter : V n
  here : A env.here n
  outer : ∀ s ∈ env.outer, s.index < st.scopes.size ∧ ¬ A s n

/-- Code may be run in an environment.  Of its counters, those in `own` belong
to the innermost scope and are not bound yet; all others are inside. -/
structure Runnable (V : String → Prop) (A : Chart) (st : Store) (env : Env) (own : List String)
    (ds : List Deed) : Prop where
  charted : st.Charted V A
  tame : Tame V ds
  avoids : env.Avoids A st (countersOf ds)
  owns : ∀ n ∈ own, env.Owns V A st n
  unbound : ∀ n ∈ own, (st.scope env.here).get? n = none
  once : own.Nodup

section Runnable

variable {V : String → Prop} {P A A' : Chart} {st st' : Store} {env : Env} {n : String}
  {own own' : List String} {ds ds' : List Deed}

theorem Env.Owns.after (h : env.Owns V A st n) (hst : st.Charted V A)
    (he : st.Evolves V P A A' st') : env.Owns V A' st' n where
  counter := h.counter
  here := (he.agrees _ _ (hst.here _ _ h.here)).2 h.here
  outer s hs := by
    obtain ⟨hlt, hfree⟩ := h.outer s hs
    exact ⟨hlt.trans_le he.size, fun hA => hfree ((he.agrees s n hlt).1 hA)⟩

/-- The innermost scope is the one where the counter is assigned. -/
theorem Env.Owns.assign_eq (h : env.Owns V A st n) (hst : st.Charted V A) (v : Value) :
    st.assign env n v = st.bind env.here n v := by
  have houter : st.owner? n env.outer = none := by
    cases howner : st.owner? n env.outer with
    | none => rfl
    | some s =>
      obtain ⟨hs, hbinds⟩ := Store.mem_of_owner? howner
      exact absurd (hst.bound s n h.counter hbinds) (h.outer s hs).2
  rw [Store.assign_eq_owner?, Env.chain, Store.owner?, houter]
  split <;> rfl

theorem Runnable.part (h : Runnable V A st env own ds) (hown : own'.Sublist own)
    (hds : ds'.Sublist ds) : Runnable V A st env own' ds' where
  charted := h.charted
  tame := h.tame.sublist hds
  avoids := h.avoids.mono (hds.filterMap _).subset
  owns n hn := h.owns n (hown.subset hn)
  unbound n hn := h.unbound n (hown.subset hn)
  once := h.once.sublist hown

/-- Code that is runnable somewhere still is when other code was run that does not
change its counters. -/
theorem Runnable.after (h : Runnable V A st env own ds) (he : st.Evolves V P A A' st')
    (hP : ∀ n ∈ own, ¬ P env.here n) : Runnable V A' st' env own ds where
  charted := he.charted
  tame := h.tame
  avoids := h.avoids.after he
  owns n hn := (h.owns n hn).after h.charted he
  unbound n hn := by
    have hown := h.owns n hn
    rw [he.keeps _ _ (h.charted.here _ _ hown.here) hown.counter (hP n hn), h.unbound n hn]
  once := h.once

/-- Statements are runnable in a scope that was made for them. -/
theorem runnable_push {ss : List Stmt} (htame : Tame V (Stmt.deedsAll ss))
    (hcharted : st.Charted V A) {outer : List ScopeRef}
    (houter : ∀ n ∈ countersOf (Stmt.deedsAll ss), ∀ s ∈ outer,
      s.index < st.scopes.size ∧ ¬ A s n) :
    Runnable V (A.withScope st (Stmt.ownAll ss)) { st with scopes := st.scopes.push [] }
      ⟨⟨st.scopes.size⟩, outer⟩ (Stmt.ownAll ss) (Stmt.innerAll ss) := by
  have hsize : (st.scopes.push []).size = st.scopes.size + 1 := Array.size_push _
  have hmem : ∀ n, n ∈ Stmt.ownAll ss ∨ n ∈ countersOf (Stmt.innerAll ss) →
      n ∈ countersOf (Stmt.deedsAll ss) := fun n hn =>
    (Stmt.countersOf_deedsAll ss).mem_iff.2 (List.mem_append.2 hn)
  have hfree : ∀ n ∈ countersOf (Stmt.deedsAll ss), ∀ s ∈ outer,
      s.index < (st.scopes.push []).size ∧ ¬ A.withScope st (Stmt.ownAll ss) s n := by
    intro n hn s hs
    obtain ⟨hlt, hA⟩ := houter n hn s hs
    exact ⟨hlt.trans (by omega), mt (Chart.withScope_old hlt).1 hA⟩
  refine ⟨(hcharted.evolves_push (P := fun _ _ => False) _).charted,
    htame.sublist (Stmt.innerAll_sublist ss), fun n hn s hs => ?_,
    fun n hn => ⟨?_, .inr ⟨rfl, hn⟩, hfree n (hmem n (.inl hn))⟩, fun n hn => ?_,
    htame.disjoint.1⟩
  · rcases List.mem_cons.1 hs with rfl | hs
    · refine ⟨?_, ?_⟩
      · exact Nat.lt_of_lt_of_eq (Nat.lt_succ_self _) hsize.symm
      · -- the new scope is not charted yet, and inner counters are not its own
        rintro (hA | ⟨-, hown⟩)
        · exact Nat.lt_irrefl _ (hcharted.here _ _ hA)
        · exact htame.disjoint.2 hown hn
    · exact hfree n (hmem n (.inr hn)) s hs
  · exact htame.counters n (mem_countersOf.1 (hmem n (.inl hn)))
  · rw [Store.scope_push]
    have hunbound : (st.scope ⟨st.scopes.size⟩).binds n = false :=
      Store.binds_of_size_le (Nat.le_refl _)
    exact Option.isNone_iff_eq_none.1 (by simpa [Scope.binds] using hunbound)

end Runnable

end Dncl
