/-
Dncl/Proofs/Acyclic.lean

No array ever lies inside itself.

Arrays are shared, and they are changed in place.  An array can come to lie
inside another in two ways: an array is made of values that are there already,
or a value is stored in a slot.  In the first case the new array is inside no
other.  In the second the containment test has failed, and where no array lies
inside itself this test is exact (`contains_iff`).

A host is *careful* (`Host.Careful`) if it changes no array, makes none that
lies inside itself, and refers only to arrays that exist.  Programs that run
one after the other are described by `Session.Reached`.

The containment test does not look into values that are given back.  Text and
equality do, so for them the host must not have put such a value into an
array: the evaluator never does (`unwrapped`), and one such element is enough
to make an array whose text has no end
(`arrays_never_inside_themselves_wrapped`).
-/
import Dncl.Proofs.Nesting

namespace Dncl

open Relation (TransGen ReflTransGen)

/-! ### Changes of a store -/

namespace Store

variable {st st' : Store}

theorem Acyclic.of_holds (h : st.Acyclic) (hsub : ∀ a b, st'.Holds a b → st.Holds a b) :
    st'.Acyclic :=
  fun ref hcycle => h ref (hcycle.lift id hsub)

/-- The arrays of `st` are in `st'` as they were, and no array that was made
since lies inside itself. -/
structure Grows (st st' : Store) : Prop where
  kept : ∀ ref, ref.index < st.arrays.size → st'.elements ref = st.elements ref
  fresh : ∀ ref, st.arrays.size ≤ ref.index → ¬ TransGen st'.Holds ref ref

/-- What the arrays of a store hold is the same after it has grown. -/
theorem Grows.holds (h : st.Grows st') (hst : grounded.ObeyedIn st) {a b : ArrayRef}
    (ha : a.index < st.arrays.size) (hab : st'.Holds a b) :
    b.index < st.arrays.size ∧ st.Holds a b := by
  have hab : st.Holds a b := by
    rwa [Holds, h.kept a ha] at hab
  exact ⟨hab.shows.inner_lt hst, hab⟩

theorem Grows.acyclic (h : st.Grows st') (hst : grounded.ObeyedIn st) (hacyclic : st.Acyclic) :
    st'.Acyclic := by
  intro ref hcycle
  rcases Nat.lt_or_ge ref.index st.arrays.size with hlt | hge
  · exact hacyclic ref (transGen_of_closed (fun a b => h.holds hst (a := a) (b := b)) hlt hcycle).2
  · exact h.fresh ref hge hcycle

theorem Grows.refl (st : Store) : st.Grows st := by
  refine ⟨fun _ _ => rfl, ?_⟩
  intro ref hge hcycle
  obtain ⟨inner, hinner, -⟩ := TransGen.head'_iff.1 hcycle
  exact Nat.not_lt_of_le hge hinner.shows.outer_lt

theorem Grows.trans {st₁ st₂ : Store} (h₁ : st.Grows st₁) (h₂ : st₁.Grows st₂)
    (hst₁ : grounded.ObeyedIn st₁) (hsize : st.arrays.size ≤ st₁.arrays.size) : st.Grows st₂ := by
  refine ⟨?_, ?_⟩
  · intro ref hlt
    rw [h₂.kept ref (hlt.trans_le hsize), h₁.kept ref hlt]
  · intro ref hge hcycle
    rcases Nat.lt_or_ge ref.index st₁.arrays.size with hlt | hge'
    · apply h₁.fresh ref hge
      exact (transGen_of_closed (fun a b => h₂.holds hst₁ (a := a) (b := b)) hlt hcycle).2
    · exact h₂.fresh ref hge' hcycle

/-- An array that is made of values which are there already is inside no
array. -/
theorem grows_newArray {values : List Value} (hst : grounded.ObeyedIn st)
    (hvalues : ∀ v ∈ values, grounded.data st.arrays.size v) :
    st.Grows (st.newArray values).2 := by
  have hkept : ∀ ref : ArrayRef, ref.index < st.arrays.size →
      (st.newArray values).2.elements ref = st.elements ref := by
    intro ref hlt
    rw [elements_newArray, if_neg (Nat.ne_of_lt hlt)]
  -- every edge leads to an array that was there before, also one from the new array
  have hedge : ∀ a b, (st.newArray values).2.Holds a b → b.index < st.arrays.size := by
    rintro a b ⟨span, hb⟩
    rw [elements_newArray] at hb
    split at hb
    · exact hvalues _ hb b rfl
    · exact hst _ (.inr ⟨a, hb⟩) b rfl
  refine ⟨hkept, ?_⟩
  intro ref hge hcycle
  obtain ⟨b, -, hlast⟩ := TransGen.tail'_iff.1 hcycle
  exact Nat.not_lt_of_le hge (hedge b ref hlast)

/-- The containment test is enough to store a value in a slot. -/
theorem acyclic_setSlot {ref : ArrayRef} {slot : Nat} {v : Value} (hst : grounded.ObeyedIn st)
    (hacyclic : st.Acyclic) (hv : st.contains v ref = false) : (st.setSlot ref slot v).Acyclic := by
  -- an element of the new store is an old one, or the value in the slot
  have hedge : ∀ a b, (st.setSlot ref slot v).Holds a b →
      st.Holds a b ∨ a = ref ∧ ∃ span, v = .array b span := by
    rintro a b ⟨span, hb⟩
    rw [elements_setSlot] at hb
    split at hb
    · rename_i heq
      rw [Array.toList_setIfInBounds] at hb
      rcases List.mem_or_eq_of_mem_set hb with hb | hb
      · exact .inl ⟨span, hb⟩
      · exact .inr ⟨heq.symm, span, hb.symm⟩
    · exact .inl ⟨span, hb⟩
  intro a hcycle
  cases v with
  | array inner place =>
    have hpath := transGen_insert (x := ref) (y := inner) (r := st.Holds)
      (fun a b hab => by
        rcases hedge a b hab with h | ⟨rfl, span, h⟩
        · exact .inl h
        · exact .inr ⟨rfl, (Value.array.inj h).1.symm⟩) hcycle
    rcases hpath with hpath | ⟨hto, hfrom⟩
    · exact hacyclic a hpath
    · -- the cycle goes through the slot, so the test would have found the array
      have hfound := (contains_iff hst hacyclic (.array inner place) ref).2
        ⟨inner, place, rfl, hfrom.trans hto⟩
      rw [hv] at hfound
      cases hfound
  | _ =>
    refine hacyclic.of_holds (fun a b hab => ?_) a hcycle
    rcases hedge a b hab with h | ⟨-, span, h⟩
    · exact h
    · cases h

end Store

/-! ### Runs -/

variable {σ : Type} {host : Host σ} {settings : Settings}

/-- A host that changes no array, makes no array that lies inside itself, and
refers only to arrays that exist. -/
structure Host.Careful (host : Host σ) : Prop where
  refers : grounded.Followed host
  builtin : ∀ function arguments span st world, grounded.ObeyedIn st →
    (∀ v ∈ arguments, grounded.data st.arrays.size v) →
    st.Grows (host.builtin function arguments span st world).2.1
  command : ∀ c span st world, grounded.ObeyedIn st →
    st.Grows (host.command c span st world).2.1

/-- The sessions that programs can leave, one after the other.  The settings
may differ from program to program, and a program may have been stopped. -/
inductive Session.Reached (host : Host σ) : Session σ → Prop
  | new (world : σ) : Reached host (Session.new world)
  | renew {s : Session σ} : Reached host s → Reached host s.renew
  | after {s : Session σ} (settings : Settings) (n : Nat) (p : Program) :
      Reached host s → Reached host (s.run host settings n p).2

namespace Machine

/-- Every move keeps arrays from lying inside themselves. -/
theorem Move.acyclic (hhost : host.Careful) {hand : List Value} {code : Part → Prop}
    {left : Bool} {m m' : Machine σ}
    (hm : grounded.ObeyedIn m.store) (hhand : ∀ v ∈ hand, grounded.data m.store.arrays.size v)
    (h : m.store.Acyclic) (hmove : Move host settings hand code left m m') : m'.store.Acyclic := by
  cases hmove with
  | setSlot ref slot span hv _ _ hcontains => exact Store.acyclic_setSlot hm h hcontains
  | array span hv =>
    exact (Store.grows_newArray hm fun v hmem => hhand v (hv v hmem)).acyclic hm h
  | call ref place span _ ha harity hdepth =>
    rw [apply_eq harity hdepth]
    have hkept := ValueLaw.kept_bindParams (m.store.enter (m.store.closure ref).env).1
      (m.store.closure ref).literal.params ‹_› (m.store.enter (m.store.closure ref).env).2
    refine h.of_holds fun a b hab => ?_
    rwa [Store.Holds, Store.elements, hkept.1] at hab
  | builtin function span ha =>
    have hgrows := hhost.builtin function _ span m.store m.world hm fun v hmem =>
      hhand v (ha v hmem)
    rw [applyBuiltin]
    simp only
    split <;> exact hgrows.acyclic hm h
  | command c span => exact (hhost.command c span m.store m.world hm).acyclic hm h
  | assign env name =>
    rw [Store.assign_eq_owner?]
    exact h
  | _ => exact h

theorem run_acyclic (hhost : host.Careful) {m : Machine σ} (hm : grounded.Obeyed m)
    (h : m.store.Acyclic) (n : Nat) : (m.run host settings n).store.Acyclic := by
  have hboth : grounded.Obeyed (m.run host settings n) ∧ (m.run host settings n).store.Acyclic := by
    refine run_invariant (P := fun m => grounded.Obeyed m ∧ m.store.Acyclic) ?_ ⟨hm, h⟩ n
    rintro m m' ⟨hm, h⟩ - hmove
    have hhand : ∀ v ∈ m.inHand, grounded.data m.base.store.arrays.size v := by
      rw [store_base]
      exact hm.inHand
    refine ⟨hm.base.move hhost.refers hhand hmove, hmove.acyclic hhost hm.base.stored hhand ?_⟩
    rw [store_base]
    exact h
  exact hboth.2

end Machine

/-! ### Sessions -/

/-- A law that the host keeps to holds in every session that programs leave. -/
theorem Session.Reached.obeys {law : ValueLaw} (hhost : law.Followed host) {s : Session σ}
    (h : s.Reached host) : law.ObeyedIn s.store := by
  induction h with
  | new world => exact fun v hv => absurd hv (Session.not_stored_new world v)
  | renew _ ih => exact ih.newEnv
  | after settings n p _ ih => exact (ValueLaw.run_obeys hhost (ValueLaw.Obeyed.load ih p) n).stored

theorem Machine.store_load (s : Session σ) (p : Program) : (Machine.load s p).store = s.store := by
  rw [Machine.load]
  split <;> rfl

theorem Session.Reached.acyclic (hhost : host.Careful) {s : Session σ} (h : s.Reached host) :
    s.store.Acyclic := by
  induction h with
  | new world =>
    intro ref hcycle
    obtain ⟨inner, ⟨span, hinner⟩, -⟩ := TransGen.head'_iff.1 hcycle
    exact Session.not_stored_new world _ (.inr ⟨ref, hinner⟩)
  | renew _ ih => exact ih
  | after settings n p hs ih =>
    refine Machine.run_acyclic hhost (ValueLaw.Obeyed.load (hs.obeys hhost.refers) p) ?_ n
    rw [Machine.store_load]
    exact ih

/-- Where no stored value is one that is given back, arrays show only what they
hold. -/
theorem Store.Acyclic.showable {st : Store} (h : st.Acyclic) (hst : unwrapped.ObeyedIn st) :
    st.Showable := by
  intro ref hcycle
  refine h ref (hcycle.lift id fun a b hab => hab.holds ?_)
  exact fun r v hv => hst v (.inr ⟨r, hv⟩)

/-! ### Main result -/

/-- **No array ever lies inside itself.**  Let the host be careful, and let `m`
be any state in the run of a program, in a session that was left by any
programs before.

* No array of `m` lies inside itself.  So following elements comes to an end,
  the containment test satisfies its equation, and it finds exactly what can
  be reached from array to element.
* The text of every array is what it should be exactly if no array shows
  itself, and equality then satisfies its equation too.
* No array shows itself if the host stores no value that is given back. -/
theorem arrays_never_inside_themselves (host : Host σ) (hhost : host.Careful) (s : Session σ)
    (hs : s.Reached host) (settings : Settings) (p : Program) (n : Nat) (m : Machine σ)
    (hm : (Machine.load s p).run host settings n = m) :
    (m.store.Acyclic ∧
      (WellFounded fun inner outer => m.store.Holds outer inner) ∧
      (∀ ref span inner, m.store.contains (.array ref span) inner =
        (ref == inner || (m.store.elements ref).toList.any fun v => m.store.contains v inner)) ∧
      ∀ v inner, m.store.contains v inner = true ↔
        ∃ ref span, v = .array ref span ∧ ReflTransGen m.store.Holds ref inner) ∧
    (((∀ ref span, m.store.text (.array ref span) =
        "[" ++ Text.joinWith ", " ((m.store.elements ref).toList.map m.store.text) ++ "]") ↔
        m.store.Showable) ∧
      (m.store.Showable → (WellFounded fun inner outer => m.store.Shows outer inner) ∧
        ∀ a b place place', m.store.equal (.array a place) (.array b place') =
          (a == b || pairwise m.store.equal (m.store.elements a).toList
            (m.store.elements b).toList))) ∧
    (unwrapped.Followed host → m.store.Showable) := by
  have hobeyed : grounded.ObeyedIn m.store := by
    rw [← hm]
    have hload := ValueLaw.Obeyed.load (hs.obeys hhost.refers) p
    exact (ValueLaw.run_obeys hhost.refers hload n).stored
  have hacyclic : m.store.Acyclic := by
    rw [← hm]
    refine Machine.run_acyclic hhost (ValueLaw.Obeyed.load (hs.obeys hhost.refers) p) ?_ n
    rw [Machine.store_load]
    exact hs.acyclic hhost
  refine ⟨⟨hacyclic, ?_, ?_, ?_⟩, ⟨Store.text_array_iff hobeyed, ?_⟩, ?_⟩
  · exact wellFounded_of_acyclic (fun _ _ h => h.shows.inner_lt hobeyed) hacyclic
  · exact Store.contains_array hobeyed hacyclic
  · exact Store.contains_iff hobeyed hacyclic
  · intro hshow
    exact ⟨wellFounded_of_acyclic (fun _ _ h => h.inner_lt hobeyed) hshow,
      Store.equal_array hobeyed hshow⟩
  · intro hunwrapped
    apply hacyclic.showable
    rw [← hm]
    exact (ValueLaw.run_obeys hunwrapped (ValueLaw.Obeyed.load (hs.obeys hunwrapped) p) n).stored

/-- A host whose commands come to an array of one element, which gives back an
array. -/
def wrappingHost : Host Unit where
  builtin _ _ span st world := (.null span, st, world)
  command _ span st world :=
    match st.newArray [.int 0 span] with
    | (inner, st) =>
      match st.newArray [.returned (.array inner span) span] with
      | (outer, st) => (.array outer span, st, world)

/-- `b` is an array that gives back the array `x`, and `b` is stored in `x`. -/
def wrapsItself : Program :=
  ⟨[.assign (.ident ⟨"b", default⟩) (.command (.other "x") default) default,
    .assign (.ident ⟨"x", default⟩) (.call (.function ⟨[], ⟨[.expr (.index (.ident ⟨"b", default⟩)
      (.int 1 default) default)], default⟩, default⟩) [] default) default,
    .assign (.index (.ident ⟨"x", default⟩) (.int 1 default) default) (.ident ⟨"b", default⟩)
      default], default⟩

theorem wrappingHost_careful : wrappingHost.Careful := by
  -- both arrays are made of values that refer to arrays which are there already
  have hmake : ∀ (st : Store) (span : Span), grounded.ObeyedIn st →
      let st₁ := (st.newArray [.int 0 span]).2
      let st₂ := (st₁.newArray [.returned (.array ⟨st.arrays.size⟩ span) span]).2
      grounded.ObeyedIn st₂ ∧ st.Grows st₂ ∧ st₂.arrays.size = st.arrays.size + 2 := by
    intro st span hst
    have hvalues : ∀ v ∈ [Value.int 0 span], grounded.data st.arrays.size v := by
      simp [grounded, Value.arrayRef?]
    have hst₁ := hst.newArray hvalues
    have hsize := ValueLaw.size_newArray st [.int 0 span]
    have hvalues₁ : ∀ v ∈ [Value.returned (.array ⟨st.arrays.size⟩ span) span],
        grounded.data (st.newArray [.int 0 span]).2.arrays.size v := by
      simp [grounded, Value.arrayRef?, hsize]
    refine ⟨hst₁.newArray hvalues₁, ?_, ?_⟩
    · exact (Store.grows_newArray hst hvalues).trans (Store.grows_newArray hst₁ hvalues₁) hst₁
        (by omega)
    · rw [ValueLaw.size_newArray, hsize]
  refine ⟨⟨?_, ?_⟩, ?_, ?_⟩
  · intro function arguments span st world hst _
    refine ⟨hst, ?_, Nat.le_refl _⟩
    rintro ref ⟨⟩
  · intro c span st world hst
    obtain ⟨hst₂, -, hsize⟩ := hmake st span hst
    refine ⟨hst₂, ?_, ?_⟩
    · rintro ref ⟨⟩
      show (st.newArray [.int 0 span]).2.arrays.size < _
      rw [ValueLaw.size_newArray]
      exact Nat.lt_of_lt_of_eq (Nat.lt_succ_self _) hsize.symm
    · exact (Nat.le_add_right _ 2).trans_eq hsize.symm
  · intro function arguments span st world _ _
    exact Store.Grows.refl st
  · intro c span st world hst
    exact (hmake st span hst).2.1

/-- `b` is an element of `x`, and `x` lies in a value that `b` gives back: no
array holds itself, but the texts of both have no end. -/
theorem arrays_never_inside_themselves_wrapped :
    ∃ m, (Machine.load (Session.new ()) wrapsItself).run wrappingHost {} 40 = m ∧
      m.outcome? = some (.ok (.null default)) ∧ m.store.Acyclic ∧
      ¬ ∀ ref span, m.store.text (.array ref span) =
        "[" ++ Text.joinWith ", " ((m.store.elements ref).toList.map m.store.text) ++ "]" := by
  refine ⟨_, rfl, rfl, ?_⟩
  have hspec := arrays_never_inside_themselves wrappingHost wrappingHost_careful (Session.new ())
    (.new ()) {} wrapsItself 40 _ rfl
  refine ⟨hspec.1.1, ?_⟩
  rw [hspec.2.1.1]
  intro hshow
  refine hshow ⟨0⟩ (.tail (.single (b := ⟨1⟩) ⟨.array ⟨1⟩ default, ?_, rfl⟩)
    ⟨.returned (.array ⟨0⟩ default) default, ?_, rfl⟩)
  · exact List.mem_singleton_self _
  · exact List.mem_singleton_self _

end Dncl
