/-
Dncl/Proofs/Elements.lean

Elements of arrays are read and written exactly.

An array of `n` elements has the indices `o`, `o + 1`, …, `o + n - 1`, where `o` is
the origin, 0 or 1.  Any other index is refused, whatever its size, and so is an
array that would come to lie inside itself.

Design.  `StoreFault` lists the four reasons for which a store is refused, and
`StoresElement` says what becomes of a store: it is refused and leaves the state as
it is, or it replaces one slot.  Storing in an element is then one rule
(`ends_beginStore_index`), which an assignment shares with every other statement
that stores.  `SlotChanged` compares two states slot by slot and binding by
binding.
-/
import Dncl.Proofs.Evaluation
import Dncl.Proofs.Nesting

namespace Dncl

variable {a i u v w : Value} {slot span : Span} {x y : Expr} {ref : ArrayRef} {k : Nat}

/-! ### Slots -/

namespace Machine

/-- The slots that indices stand for: those between the origin and the end of the
array. -/
theorem slotOf_eq_ok_iff {origin : Origin} {st : Store} :
    slotOf origin st a i = .ok (ref, k) ↔
      ∃ n place place', a = .array ref place ∧ i = .int n place' ∧ origin.offset ≤ n ∧
        n < origin.offset + (st.elements ref).size ∧ (k : Int) = n - origin.offset := by
  constructor
  · intro h
    rw [slotOf.eq_def] at h
    split at h
    · split at h
      · simp only at h
        split at h
        · obtain ⟨rfl, rfl⟩ := Prod.mk.inj (Except.ok.inj h)
          exact ⟨_, _, _, rfl, rfl, by omega, by omega, by omega⟩
        · cases h
      · cases h
    · cases h
  · rintro ⟨n, place, place', rfl, rfl, hlow, hhigh, hk⟩
    have hslot : 0 ≤ n - origin.offset ∧ n - origin.offset < (st.elements ref).size := by omega
    rw [slotOf, if_pos hslot]
    have hnat : (n - origin.offset).toNat = k := by omega
    rw [hnat]

/-- The element at a slot that was found. -/
theorem fetch_of_slotOf {origin : Origin} {st : Store} (h : slotOf origin st a i = .ok (ref, k))
    (hv : (st.elements ref)[k]? = some v) (span : Span) : fetch origin st a i span = v := by
  rw [fetch, h]
  simp only
  rw [Array.getD_eq_getD_getElem?, hv, Option.getD_some]

end Machine

/-! ### Stores that are refused -/

/-- The reasons for which the value `v` cannot be stored in `a[i]`. -/
inductive StoreFault (origin : Origin) (st : Store) (v a i : Value) : Fault → Prop
  | notIndexable : a.kind ≠ .array → StoreFault origin st v a i (.notIndexable a.kind)
  | indexKind : a.kind = .array → i.kind ≠ .int → StoreFault origin st v a i (.indexKind i.kind)
  | outOfRange (ref : ArrayRef) (n : Int) (place place' : Span) :
      a = .array ref place → i = .int n place' →
      ¬ (origin.offset ≤ n ∧ n < origin.offset + (st.elements ref).size) →
      StoreFault origin st v a i
        (.outOfRange n origin.offset (origin.offset + (st.elements ref).size - 1))
  | selfContaining (ref : ArrayRef) (k : Nat) : Machine.slotOf origin st a i = .ok (ref, k) →
      st.contains v ref = true → StoreFault origin st v a i .selfContaining

/-- A slot is refused for a reason. -/
theorem storeFault_of_slotOf {origin : Origin} {st : Store} {fault : Fault}
    (h : Machine.slotOf origin st a i = .error fault) : StoreFault origin st v a i fault := by
  cases a with
  | array ref place =>
    cases i with
    | int n place' =>
      rw [Machine.slotOf] at h
      split at h
      · cases h
      · cases h
        exact .outOfRange ref n place place' rfl rfl (by omega)
    | _ =>
      cases h
      exact .indexKind rfl (by rintro ⟨⟩)
  | _ =>
    cases h
    exact .notIndexable (by rintro ⟨⟩)

/-! ### Storing -/

variable {σ : Type} {host : Host σ} {settings : Settings} {d : Nat} {env : Env}

/-- Storing `v` in `a[i]`, in the state `s`, comes to the value `w` and the state
`s'`.  The fault of a store that is refused is told of the element at `slot`. -/
inductive StoresElement (origin : Origin) (v a i : Value) (slot span : Span) (s : State σ) :
    Value → State σ → Prop
  | refused {fault : Fault} : StoreFault origin s.store v a i fault →
      StoresElement origin v a i slot span s (fault.valueAt slot) s
  | stored {ref : ArrayRef} {k : Nat} : Machine.slotOf origin s.store a i = .ok (ref, k) →
      s.store.contains v ref = false →
      StoresElement origin v a i slot span s (.null span) ⟨s.store.setSlot ref k v, s.world⟩

namespace Machine

variable {m : Machine σ} {origin : Origin} {v a i : Value}

theorem storeElement_of_fault {fault : Fault} (h : StoreFault origin m.store v a i fault)
    (slot span : Span) : m.storeElement origin a i v slot span = m.blame fault slot := by
  cases h with
  | notIndexable hne =>
    cases a with
    | array ref place => exact absurd rfl hne
    | _ => rfl
  | indexKind harray hne =>
    cases a <;> cases harray
    cases i with
    | int n place' => exact absurd rfl hne
    | _ => rfl
  | outOfRange ref n place place' ha hi hout =>
    subst ha hi
    have hslot : ¬ (0 ≤ n - origin.offset ∧
        n - origin.offset < (m.store.elements ref).size) := by omega
    rw [storeElement, slotOf, if_neg hslot]
  | selfContaining ref k hslot hself =>
    rw [storeElement, hslot]
    exact if_pos hself

theorem storeElement_of_slot (h : slotOf origin m.store a i = .ok (ref, k))
    (hv : m.store.contains v ref = false) (slot span : Span) :
    m.storeElement origin a i v slot span =
      { m with control := .value (.null span), store := m.store.setSlot ref k v } := by
  rw [storeElement, h]
  exact if_neg (Bool.eq_false_iff.1 hv)

end Machine

/-- How storing an element ends. -/
theorem ends_storeElement {s s' : State σ} :
    ((s.start (.value u) d).storeElement settings.origin a i v slot span).Ends host settings d w
      s' ↔ StoresElement settings.origin v a i slot span s w s' := by
  -- the two ways to end, as equivalences; each direction below is one of them
  have hrefused : ∀ {fault}, StoreFault settings.origin s.store v a i fault →
      (((s.start (.value u) d).storeElement settings.origin a i v slot span).Ends host settings d w
        s' ↔ w = fault.valueAt slot ∧ s' = s) := by
    intro fault hfault
    rw [Machine.storeElement_of_fault (m := s.start (.value u) d) hfault]
    exact Machine.ends_value
  have hstored : ∀ {ref k}, Machine.slotOf settings.origin s.store a i = .ok (ref, k) →
      s.store.contains v ref = false →
      (((s.start (.value u) d).storeElement settings.origin a i v slot span).Ends host settings d w
        s' ↔ w = .null span ∧ s' = ⟨s.store.setSlot ref k v, s.world⟩) := by
    intro ref k hslot hv
    rw [Machine.storeElement_of_slot (m := s.start (.value u) d) hslot hv]
    exact Machine.ends_value (t := ⟨s.store.setSlot ref k v, s.world⟩)
  constructor
  · intro h
    cases hslot : Machine.slotOf settings.origin s.store a i with
    | error fault =>
      have hfault : StoreFault settings.origin s.store v a i fault := storeFault_of_slotOf hslot
      obtain ⟨rfl, rfl⟩ := (hrefused hfault).1 h
      exact .refused hfault
    | ok found =>
      cases hv : s.store.contains v found.1 with
      | true =>
        have hfault : StoreFault settings.origin s.store v a i .selfContaining :=
          .selfContaining found.1 found.2 hslot hv
        obtain ⟨rfl, rfl⟩ := (hrefused hfault).1 h
        exact .refused hfault
      | false =>
        obtain ⟨rfl, rfl⟩ := (hstored hslot hv).1 h
        exact .stored hslot hv
  · intro h
    cases h with
    | refused hfault => exact (hrefused hfault).2 ⟨rfl, rfl⟩
    | stored hslot hv => exact (hstored hslot hv).2 ⟨rfl, rfl⟩

/-- Storing in an element: the array and the position are evaluated, each once. -/
theorem ends_beginStore_index {s s' : State σ} :
    ((s.start (.value u) d).beginStore (.index x y slot) v env span).Ends host settings d w s' ↔
      Operands host settings d env [x, y] s w s' fun vs s₁ => ∃ a i, vs = [a, i] ∧
        StoresElement settings.origin v a i slot span s₁ w s' := by
  refine ends_operand (f := .storeLeft y v env slot span) rfl fun a s₁ _ => ?_
  refine ends_operand (f := .storeRight a v slot span) rfl fun i s₂ _ => ?_
  rw [operands_nil]
  refine ends_storeElement.trans ⟨?_, ?_⟩
  · exact fun h => ⟨a, i, rfl, h⟩
  · rintro ⟨a, i, ⟨⟩, h⟩
    exact h

/-- An assignment to an element: first the value is evaluated, then the array and
the position, each once. -/
theorem yields_assign_index {e : Expr} {s s' : State σ} :
    (Control.stmt (.assign (.index x y slot) e span) env).Yields host settings d s w s' ↔
      Operands host settings d env [e, x, y] s w s' fun vs s₁ => ∃ v a i, vs = [v, a, i] ∧
        StoresElement settings.origin v a i slot span s₁ w s' := by
  rw [Control.Yields, ← Machine.ends_step]
  refine ends_operand (f := .assign (.index x y slot) env span) rfl fun v s₁ _ => ?_
  refine ends_beginStore_index.trans ?_
  simp [Operands]

/-! ### What a store changes -/

/-- The states differ in one slot only: slot `k` of the array `ref` has the value
`v` in `s'`. -/
structure SlotChanged (ref : ArrayRef) (k : Nat) (v : Value) (s s' : State σ) : Prop where
  slot : (s'.store.elements ref)[k]? = some v
  slots : ∀ r j, ¬ (r = ref ∧ j = k) → (s'.store.elements r)[j]? = (s.store.elements r)[j]?
  sizes : ∀ r, (s'.store.elements r).size = (s.store.elements r).size
  bindings : ∀ r, s'.store.scope r = s.store.scope r
  functions : ∀ r, s'.store.closure r = s.store.closure r
  world : s'.world = s.world

theorem slotChanged_setSlot {s : State σ} (hk : k < (s.store.elements ref).size) (v : Value) :
    SlotChanged ref k v s ⟨s.store.setSlot ref k v, s.world⟩ where
  slot := by
    rw [Store.elements_setSlot, if_pos rfl, Array.getElem?_setIfInBounds, if_pos rfl, if_pos hk]
  slots r j hne := by
    rw [Store.elements_setSlot]
    split
    · rename_i hr
      have hj : k ≠ j := fun h => hne ⟨hr.symm, h.symm⟩
      rw [Array.getElem?_setIfInBounds, if_neg hj]
    · rfl
  sizes r := by
    rw [Store.elements_setSlot]
    split
    · exact Array.size_setIfInBounds
    · rfl
  bindings _ := rfl
  functions _ := rfl
  world := rfl

/-- The element is read through every value that refers to its array. -/
theorem SlotChanged.yields_alias {s s' s₂ : State σ} (h : SlotChanged ref k v s s') {n : Int}
    {place : Span} (hi : i = .int n place)
    (hslot : Machine.slotOf settings.origin s.store a i = .ok (ref, k)) {p p' : Span}
    (heval : Evaluated host settings d env [x, y] s' [.array ref p, .int n p'] s₂)
    (hkept : s₂.store.elements ref = s'.store.elements ref) (span : Span) :
    (Control.expr (.index x y span) env).Yields host settings d s' v s₂ := by
  obtain ⟨n', q, q', rfl, hn', hlow, hhigh, hk⟩ := Machine.slotOf_eq_ok_iff.1 hslot
  obtain ⟨rfl, -⟩ := Value.int.inj (hi.symm.trans hn')
  have hfound : Machine.slotOf settings.origin s₂.store (.array ref p) (.int n p') =
      .ok (ref, k) := by
    refine Machine.slotOf_eq_ok_iff.2 ⟨n, p, p', rfl, rfl, hlow, ?_, hk⟩
    rw [hkept, h.sizes]
    exact hhigh
  have hread : (s₂.store.elements ref)[k]? = some v := by
    rw [hkept]
    exact h.slot
  exact yields_index.2 (.inr ⟨_, _, heval, _, _, rfl,
    (Machine.fetch_of_slotOf hfound hread span).symm, rfl⟩)

/-! ### Main result -/

/-- **Elements are read and written exactly.**

* An index stands for a slot exactly if it is an integer between the origin and the
  last index of an array; the slot is the distance to the origin.
* Let the value, the array and the position of an assignment to an element have come
  to `v`, `a` and `i`, in the state `s₁`.  If `a[i]` is a slot and `v` does not
  contain the array, the slot has the value `v` afterwards.  It is read through every
  alias of the array, and nothing else differs from `s₁`.  Otherwise there is a reason
  to refuse the store, and for every such reason the assignment comes to its fault and
  leaves `s₁` as it is.
* If one of the three comes to a signal, so does the assignment, and nothing is
  stored.
* A value contains an array exactly if it is an array from which that one is reached
  from array to element, where values refer to arrays that exist and no array lies
  inside itself. -/
theorem element_access_exact (host : Host σ) (settings : Settings) (d : Nat) (env : Env) :
    (∀ st a i ref k, Machine.slotOf settings.origin st a i = .ok (ref, k) ↔
      ∃ n place place', a = .array ref place ∧ i = .int n place' ∧ settings.origin.offset ≤ n ∧
        n < settings.origin.offset + (st.elements ref).size ∧
        (k : Int) = n - settings.origin.offset) ∧
    (∀ x y e slot span s v a i s₁,
      Evaluated host settings d env [e, x, y] s [v, a, i] s₁ →
      (∀ ref k, Machine.slotOf settings.origin s₁.store a i = .ok (ref, k) →
        s₁.store.contains v ref = false →
        ∃ s', (Control.stmt (.assign (.index x y slot) e span) env).Yields host settings d s
            (.null span) s' ∧
          SlotChanged ref k v s₁ s' ∧
          ∀ d' env' x' y' n place p p' span' s₂, i = .int n place →
            Evaluated host settings d' env' [x', y'] s' [.array ref p, .int n p'] s₂ →
            s₂.store.elements ref = s'.store.elements ref →
            (Control.expr (.index x' y' span') env').Yields host settings d' s' v s₂) ∧
      (∀ fault, StoreFault settings.origin s₁.store v a i fault →
        (Control.stmt (.assign (.index x y slot) e span) env).Yields host settings d s
          (fault.valueAt slot) s₁) ∧
      ((∃ ref k, Machine.slotOf settings.origin s₁.store a i = .ok (ref, k) ∧
          s₁.store.contains v ref = false) ∨
        ∃ fault, StoreFault settings.origin s₁.store v a i fault)) ∧
    (∀ x y e slot span s w s', Interrupted host settings d env [e, x, y] s w s' →
      (Control.stmt (.assign (.index x y slot) e span) env).Yields host settings d s w s') ∧
    ∀ st : Store, grounded.ObeyedIn st → st.Acyclic → ∀ v ref, st.contains v ref = true ↔
      ∃ inner place, v = .array inner place ∧ Relation.ReflTransGen st.Holds inner ref := by
  refine ⟨fun _ _ _ _ _ => Machine.slotOf_eq_ok_iff, ?_, ?_,
    fun _ hst hacyclic => Store.contains_iff hst hacyclic⟩
  · intro x y e slot span s v a i s₁ heval
    have hyields : ∀ {w s'}, StoresElement settings.origin v a i slot span s₁ w s' →
        (Control.stmt (.assign (.index x y slot) e span) env).Yields host settings d s w s' :=
      fun h => yields_assign_index.2 (.inr ⟨_, _, heval, v, a, i, rfl, h⟩)
    refine ⟨?_, fun fault hfault => hyields (.refused hfault), ?_⟩
    · intro ref k hslot hv
      -- an element that is there and does not take the array into itself
      obtain ⟨n, place, place', rfl, rfl, hlow, hhigh, hk⟩ := Machine.slotOf_eq_ok_iff.1 hslot
      have hchanged : SlotChanged ref k v s₁ ⟨s₁.store.setSlot ref k v, s₁.world⟩ :=
        slotChanged_setSlot (by omega) v
      refine ⟨_, hyields (.stored hslot hv), hchanged, ?_⟩
      intro d' env' x' y' m q p p' span' s₂ hi heval' hkept
      exact hchanged.yields_alias hi hslot heval' hkept span'
    · cases hslot : Machine.slotOf settings.origin s₁.store a i with
      | error fault => exact .inr ⟨fault, storeFault_of_slotOf hslot⟩
      | ok found =>
        cases hv : s₁.store.contains v found.1 with
        -- what is there may still be refused: an array into itself
        | true => exact .inr ⟨_, .selfContaining found.1 found.2 hslot hv⟩
        | false => exact .inl ⟨found.1, found.2, rfl, hv⟩
  · intro x y e slot span s w s' h
    exact yields_assign_index.2 (.inl h)

/-- A state in which `a` and `b` are names of one array of two elements, and `c` is
the name of an array whose only element is that array. -/
def aliased : State Console :=
  ⟨⟨#[[("a", .array ⟨0⟩ default), ("b", .array ⟨0⟩ default), ("c", .array ⟨1⟩ default)]],
    #[#[.int 1 default, .int 2 default], #[.array ⟨0⟩ default]], #[]⟩, {}⟩

/-- Assigns to an element of `a`. -/
def assignsTo (index : Int) (value : Expr) : Control :=
  .stmt (.assign (.index (.ident ⟨"a", default⟩) (.int index default) default) value default)
    default

theorem evaluated_assignsTo (index : Int) {value : Expr} (hv : v.isSignal = false)
    (h : (Control.expr value default).Yields Console.host {} 0 aliased v aliased) :
    Evaluated Console.host {} 0 default
      [value, .ident ⟨"a", default⟩, .int index default] aliased
      [v, .array ⟨0⟩ default, .int index default] aliased :=
  .cons h hv (.cons ⟨1, rfl⟩ rfl (.cons ⟨1, rfl⟩ rfl (.nil _)))

/-- What is assigned to `a[2]` is read from `b[2]`; there is no `a[3]`; and `c`, which
contains `a`, cannot be stored in `a[1]`. -/
theorem element_access_exact_alias :
    (∃ s', (assignsTo 2 (.int 5 default)).Yields Console.host {} 0 aliased (.null default) s' ∧
      (Control.expr (.index (.ident ⟨"b", default⟩) (.int 2 default) default) default).Yields
        Console.host {} 0 s' (.int 5 default) s') ∧
    (assignsTo 3 (.int 5 default)).Yields Console.host {} 0 aliased
      ((Fault.outOfRange 3 1 2).valueAt default) aliased ∧
    (aliased.store.contains (.array ⟨1⟩ default) ⟨0⟩ = true ∧
      (assignsTo 1 (.ident ⟨"c", default⟩)).Yields Console.host {} 0 aliased
        (Fault.selfContaining.valueAt default) aliased) := by
  have hspec := (element_access_exact Console.host {} 0 default).2.1
  have hfive : (Control.expr (.int 5 default) default).Yields Console.host {} 0 aliased
      (.int 5 default) aliased := ⟨1, rfl⟩
  refine ⟨?_, ?_, rfl, ?_⟩
  · obtain ⟨s', hyields, -, halias⟩ := (hspec _ _ _ default default _ _ _ _ _
      (evaluated_assignsTo 2 rfl hfive)).1 ⟨0⟩ 1 rfl rfl
    have hstate : s' = ⟨aliased.store.setSlot ⟨0⟩ 1 (.int 5 default), aliased.world⟩ :=
      (Control.Yields.unique hyields ⟨7, rfl⟩).2
    refine ⟨s', hyields, ?_⟩
    subst hstate
    exact halias 0 default _ _ 2 default default default default _ rfl
      (.cons ⟨1, rfl⟩ rfl (.cons ⟨1, rfl⟩ rfl (.nil _))) rfl
  · exact (hspec _ _ _ default default _ _ _ _ _ (evaluated_assignsTo 3 rfl hfive)).2.1 _
      (.outOfRange ⟨0⟩ 3 default default rfl rfl (by decide))
  · exact (hspec _ _ _ default default _ _ _ _ _ (evaluated_assignsTo 1 rfl ⟨1, rfl⟩)).2.1 _
      (.selfContaining ⟨0⟩ 0 rfl rfl)

end Dncl
