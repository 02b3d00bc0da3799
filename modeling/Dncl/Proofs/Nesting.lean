/-
Dncl/Proofs/Nesting.lean

Arrays inside arrays.

An array *holds* another if it has it as an element, and it *shows* another
also if an element is a value that is given back and has it inside.  The
containment test follows the first relation; text and equality follow the
second.

Design.  Where no array lies inside itself, every array has a rank, below that
of the arrays around it and at most the number of arrays (`exists_rank`).  So
the number of layers that the three functions are given is enough, and they
satisfy the equations by which they are meant:

    st.text (.array ref span) =
      "[" ++ Text.joinWith ", " ((st.elements ref).toList.map st.text) ++ "]".

For text the converse is true as well (`text_array_iff`): the text of an array
is longer than that of an array inside it.
-/
import Mathlib.Data.Finset.Card
import Mathlib.Data.Finset.Range
import Mathlib.Logic.Relation
import Dncl.Proofs.Stored
import Dncl.Store.Inspect

namespace Dncl

open Relation (TransGen ReflTransGen)

variable {a b inner outer ref : ArrayRef} {m n : Nat}

/-! ### Ranks -/

section Rank

variable {r : ArrayRef → ArrayRef → Prop}

/-- If each step of the relation loses one of `n` arrays that are reached, and
reaches no other, then arrays can be ranked along it. -/
theorem exists_rank_of_reached (reached : ArrayRef → ArrayRef → Prop)
    (hmore : ∀ a b, r a b → ∀ c, reached b c → reached a c)
    (hloses : ∀ a b, r a b → ∃ c, c.index < n ∧ reached a c ∧ ¬ reached b c) :
    ∃ rank : ArrayRef → Nat, (∀ a, rank a ≤ n) ∧ ∀ a b, r a b → rank b < rank a := by
  classical
  refine ⟨fun a => ((Finset.range n).filter fun i => reached a ⟨i⟩).card, ?_, ?_⟩
  · intro a
    exact (Finset.card_filter_le _ _).trans_eq (Finset.card_range n)
  · intro a b hab
    obtain ⟨c, hc, hac, hbc⟩ := hloses a b hab
    apply Finset.card_lt_card
    rw [Finset.ssubset_iff_of_subset]
    · exact ⟨c.index, Finset.mem_filter.2 ⟨Finset.mem_range.2 hc, hac⟩,
        fun hmem => hbc (Finset.mem_filter.1 hmem).2⟩
    · intro i hi
      obtain ⟨hrange, hbi⟩ := Finset.mem_filter.1 hi
      exact Finset.mem_filter.2 ⟨hrange, hmore a b hab _ hbi⟩

/-- If the relation has no cycle, and leads to one of `n` arrays only, then
arrays can be ranked along it: by the number of arrays below them. -/
theorem exists_rank (hn : ∀ a b, r a b → b.index < n) (hr : ∀ a, ¬ TransGen r a a) :
    ∃ rank : ArrayRef → Nat, (∀ a, rank a ≤ n) ∧ ∀ a b, r a b → rank b < rank a := by
  refine exists_rank_of_reached (TransGen r) (fun _ _ hab _ => .head hab) fun a b hab => ?_
  exact ⟨b, hn a b hab, .single hab, hr b⟩

theorem not_transGen_of_rank (rank : ArrayRef → Nat) (hrank : ∀ a b, r a b → rank b < rank a)
    (a : ArrayRef) : ¬ TransGen r a a := by
  have hlt : ∀ {b}, TransGen r a b → rank b < rank a := by
    intro b hab
    induction hab with
    | single h => exact hrank _ _ h
    | tail _ h ih => exact (hrank _ _ h).trans ih
  exact fun h => Nat.lt_irrefl _ (hlt h)

/-- What is found out layer by layer does not change any more from the rank of an
array on. -/
theorem layers_congr {α : Type} {f : Nat → ArrayRef → α} {rank : ArrayRef → Nat}
    (hlayer : ∀ n m a, (∀ b, r a b → f n b = f m b) → f (n + 1) a = f (m + 1) a)
    (hrank : ∀ a b, r a b → rank b < rank a) (hn : rank a < n) (hm : rank a < m) :
    f n a = f m a := by
  induction n generalizing m a with
  | zero => cases hn
  | succ n ih =>
    cases m with
    | zero => cases hm
    | succ m =>
      refine hlayer n m a fun b hab => ?_
      have hlt := hrank a b hab
      exact ih (by omega) (by omega)

/-- Without cycles, following the relation always comes to an end. -/
theorem wellFounded_of_acyclic (hn : ∀ a b, r a b → b.index < n) (hr : ∀ a, ¬ TransGen r a a) :
    WellFounded fun b a => r a b := by
  obtain ⟨rank, -, hrank⟩ := exists_rank hn hr
  exact Subrelation.wf (fun {b a} hab => hrank a b hab) (measure rank).wf

/-- Paths that begin in a closed set of arrays stay in it. -/
theorem transGen_of_closed {r' : ArrayRef → ArrayRef → Prop} {S : ArrayRef → Prop}
    (hS : ∀ a b, S a → r' a b → S b ∧ r a b) (ha : S a) (h : TransGen r' a b) :
    S b ∧ TransGen r a b := by
  induction h with
  | single h =>
    obtain ⟨hb, hab⟩ := hS _ _ ha h
    exact ⟨hb, .single hab⟩
  | tail _ h ih =>
    obtain ⟨hc, hbc⟩ := hS _ _ ih.1 h
    exact ⟨hc, ih.2.tail hbc⟩

/-- A path that may use one edge more, from `x` to `y`, is an old path, or
leads to `x` and on from `y`. -/
theorem transGen_insert {r' : ArrayRef → ArrayRef → Prop} {x y : ArrayRef}
    (hr : ∀ a b, r' a b → r a b ∨ a = x ∧ b = y) (h : TransGen r' a b) :
    TransGen r a b ∨ ReflTransGen r a x ∧ ReflTransGen r y b := by
  induction h with
  | single h =>
    rcases hr _ _ h with h | ⟨rfl, rfl⟩
    · exact .inl (.single h)
    · exact .inr ⟨.refl, .refl⟩
  | tail _ h ih =>
    rcases hr _ _ h with h | ⟨rfl, rfl⟩
    · rcases ih with ih | ⟨hx, hy⟩
      · exact .inl (ih.tail h)
      · exact .inr ⟨hx, hy.tail h⟩
    · rcases ih with ih | ⟨hx, -⟩
      · exact .inr ⟨ih.to_reflTransGen, .refl⟩
      · exact .inr ⟨hx, .refl⟩

end Rank

/-! ### Relations between arrays -/

/-- The array that a value is, or that is given back by it. -/
def Value.arrayRef? : Value → Option ArrayRef
  | .array ref _ => some ref
  | .returned v _ => v.arrayRef?
  | _ => none

namespace Store

/-- The array `outer` has the array `inner` as an element. -/
def Holds (st : Store) (outer inner : ArrayRef) : Prop :=
  ∃ span, Value.array inner span ∈ (st.elements outer).toList

/-- The array `outer` has an element that is the array `inner` or gives it
back. -/
def Shows (st : Store) (outer inner : ArrayRef) : Prop :=
  ∃ v ∈ (st.elements outer).toList, v.arrayRef? = some inner

/-- No array lies inside itself. -/
def Acyclic (st : Store) : Prop :=
  ∀ ref, ¬ TransGen st.Holds ref ref

/-- No text of an array would have to show itself. -/
def Showable (st : Store) : Prop :=
  ∀ ref, ¬ TransGen st.Shows ref ref

variable {st : Store}

theorem Holds.shows (h : st.Holds a b) : st.Shows a b := by
  obtain ⟨span, h⟩ := h
  exact ⟨_, h, rfl⟩

theorem Shows.outer_lt (h : st.Shows a b) : a.index < st.arrays.size := by
  obtain ⟨v, hv, -⟩ := h
  rw [elements, Array.getD_eq_getD_getElem?] at hv
  by_contra hlt
  rw [Array.getElem?_eq_none (Nat.le_of_not_lt hlt)] at hv
  simp at hv

/-- Where no element of an array is a value that is given back, arrays show
only what they hold. -/
theorem Shows.holds (hst : ∀ ref, ∀ v ∈ (st.elements ref).toList, v.kind ≠ .returned)
    (h : st.Shows a b) : st.Holds a b := by
  obtain ⟨v, hv, hb⟩ := h
  cases v with
  | array ref span =>
    obtain rfl := Option.some.inj hb
    exact ⟨span, hv⟩
  | returned w span => exact absurd rfl (hst a _ hv)
  | _ => cases hb

end Store

/-- Values refer only to arrays that exist. -/
def grounded : ValueLaw where
  data n v := ∀ ref, v.arrayRef? = some ref → ref.index < n
  carried n v := ∀ ref, v.arrayRef? = some ref → ref.index < n
  data_plain {n v} hv := by
    cases v with
    | int | str | bool | null => exact fun ref h => by cases h
    | _ => cases hv
  data_function _ _ _ ref h := by cases h
  data_array _ hlt ref h := by
    obtain rfl := Option.some.inj h
    exact hlt
  data_of_carried h _ := h
  carried_of_data h := h
  carried_fault _ f span ref h := by
    rw [Fault.valueAt] at h
    split at h <;> cases h
  carried_returned _ h := h
  carried_unwrap {n v} h _ := by
    cases v with
    | returned w span => exact h
    | _ => exact h
  data_mono hle h ref href := (h ref href).trans_le hle
  carried_mono hle h ref href := (h ref href).trans_le hle

/-- No data is a value that is given back. -/
def unwrapped : ValueLaw where
  data _ v := v.kind ≠ .returned
  carried _ _ := True
  data_plain {n v} hv := by
    cases v with
    | returned w span => cases hv
    | _ => exact Kind.noConfusion
  data_function _ _ _ := Kind.noConfusion
  data_array _ _ := Kind.noConfusion
  data_of_carried {n v} _ hv := by
    cases v with
    | returned w span => cases hv
    | _ => exact Kind.noConfusion
  carried_of_data _ := trivial
  carried_fault _ _ _ := trivial
  carried_returned _ _ := trivial
  carried_unwrap _ _ := trivial
  data_mono _ h := h
  carried_mono _ h := h

namespace Store

variable {st : Store}

theorem Shows.inner_lt (hst : grounded.ObeyedIn st) (h : st.Shows a b) :
    b.index < st.arrays.size := by
  obtain ⟨v, hv, hb⟩ := h
  exact hst v (.inr ⟨a, hv⟩) b hb

/-! ### Containment -/

theorem reflTransGen_of_reaches (h : st.reaches inner n outer = true) :
    ReflTransGen st.Holds outer inner := by
  induction n generalizing outer with
  | zero => cases h
  | succ n ih =>
    rw [reaches, Bool.or_eq_true] at h
    rcases h with h | h
    · rw [eq_of_beq h]
    · obtain ⟨v, hv, h⟩ := List.any_eq_true.1 h
      cases v with
      | array ref span => exact .head ⟨span, hv⟩ (ih h)
      | _ => cases h

theorem reaches_of_reflTransGen {rank : ArrayRef → Nat}
    (hrank : ∀ a b, st.Holds a b → rank b < rank a) (h : ReflTransGen st.Holds outer inner)
    (hn : rank outer < n) : st.reaches inner n outer = true := by
  induction h using ReflTransGen.head_induction_on generalizing n with
  | refl =>
    cases n with
    | zero => cases hn
    | succ n => rw [reaches, beq_self_eq_true, Bool.true_or]
  | head hab _ ih =>
    cases n with
    | zero => cases hn
    | succ n =>
      have hlt := hrank _ _ hab
      obtain ⟨span, hb⟩ := hab
      rw [reaches, Bool.or_eq_true]
      exact .inr (List.any_eq_true.2 ⟨_, hb, ih (by omega)⟩)

/-- **The containment test is exact**: it finds what can be reached from array
to element. -/
theorem contains_iff (hst : grounded.ObeyedIn st) (hacyclic : st.Acyclic) (v : Value)
    (inner : ArrayRef) : st.contains v inner = true ↔
      ∃ ref span, v = .array ref span ∧ ReflTransGen st.Holds ref inner := by
  obtain ⟨rank, hle, hrank⟩ := exists_rank (fun _ _ h => h.shows.inner_lt hst) hacyclic
  constructor
  · intro h
    cases v with
    | array ref span => exact ⟨ref, span, rfl, reflTransGen_of_reaches h⟩
    | _ => cases h
  · rintro ⟨ref, span, rfl, h⟩
    exact reaches_of_reflTransGen hrank h (Nat.lt_succ_of_le (hle ref))

/-- The equation of the containment test. -/
theorem contains_array (hst : grounded.ObeyedIn st) (hacyclic : st.Acyclic) (ref : ArrayRef)
    (span : Span) (inner : ArrayRef) :
    st.contains (.array ref span) inner =
      (ref == inner || (st.elements ref).toList.any fun v => st.contains v inner) := by
  rw [Bool.eq_iff_iff, contains_iff hst hacyclic, Bool.or_eq_true, beq_iff_eq, List.any_eq_true]
  constructor
  · rintro ⟨ref, span, ⟨⟩, h⟩
    rcases h.cases_head with heq | ⟨next, ⟨place, hnext⟩, h⟩
    · exact .inl heq
    · exact .inr ⟨_, hnext, (contains_iff hst hacyclic _ _).2 ⟨next, place, rfl, h⟩⟩
  · rintro (rfl | ⟨v, hv, h⟩)
    · exact ⟨_, span, rfl, .refl⟩
    · obtain ⟨next, place, rfl, hpath⟩ := (contains_iff hst hacyclic _ _).1 h
      exact ⟨ref, span, rfl, .head ⟨place, hv⟩ hpath⟩

/-! ### Text -/

theorem textWith_congr {f g : ArrayRef → String} {v : Value}
    (h : ∀ ref, v.arrayRef? = some ref → f ref = g ref) : v.textWith st f = v.textWith st g := by
  induction v with
  | array ref span => exact h ref rfl
  | returned v span ih => exact ih h
  | _ => rfl

theorem textWith_of_arrayRef {f : ArrayRef → String} {v : Value} (h : v.arrayRef? = some ref) :
    v.textWith st f = f ref := by
  induction v with
  | array r span =>
    obtain rfl := Option.some.inj h
    rfl
  | returned v span ih => exact ih h
  | _ => cases h

/-- The texts of elements depend on the arrays that are shown. -/
theorem texts_congr {f g : ArrayRef → String} (h : ∀ inner, st.Shows ref inner → f inner = g inner) :
    (st.elements ref).toList.map (Value.textWith st f) =
      (st.elements ref).toList.map (Value.textWith st g) := by
  apply List.map_congr_left
  intro v hv
  apply textWith_congr
  exact fun inner hinner => h inner ⟨v, hv, hinner⟩

theorem arrayText_congr {rank : ArrayRef → Nat} (hrank : ∀ a b, st.Shows a b → rank b < rank a)
    (hn : rank ref < n) (hm : rank ref < m) : st.arrayText n ref = st.arrayText m ref :=
  layers_congr (fun _ _ _ h => by rw [arrayText, arrayText, texts_congr h]) hrank hn hm

/-- The equation of the text of an array, in the direction that makes texts
end. -/
theorem text_array (hst : grounded.ObeyedIn st) (hshow : st.Showable) (ref : ArrayRef)
    (span : Span) :
    st.text (.array ref span) =
      "[" ++ Text.joinWith ", " ((st.elements ref).toList.map st.text) ++ "]" := by
  obtain ⟨rank, hle, hrank⟩ := exists_rank (fun _ _ h => h.inner_lt hst) hshow
  have helements : (st.elements ref).toList.map (Value.textWith st (st.arrayText st.arrays.size)) =
      (st.elements ref).toList.map st.text := by
    refine texts_congr fun inner hinner => ?_
    have hlt := hrank _ _ hinner
    have hbound := hle ref
    exact arrayText_congr hrank (by omega) (by rw [depth]; omega)
  show st.arrayText (st.arrays.size + 1) ref = _
  rw [arrayText, helements]

theorem length_le_joinWith (sep : String) {s : String} {parts : List String} (h : s ∈ parts) :
    s.length ≤ (Text.joinWith sep parts).length := by
  induction parts with
  | nil => cases h
  | cons t parts ih =>
    cases parts with
    | nil =>
      rw [List.mem_singleton.1 h]
      exact Nat.le_refl _
    | cons u parts =>
      rw [Text.joinWith, String.length_append, String.length_append]
      rcases List.mem_cons.1 h with rfl | h
      · omega
      · have := ih h
        omega

/-- **Texts of arrays are what they should be exactly if no array shows
itself.** -/
theorem text_array_iff (hst : grounded.ObeyedIn st) :
    (∀ ref span, st.text (.array ref span) =
      "[" ++ Text.joinWith ", " ((st.elements ref).toList.map st.text) ++ "]") ↔ st.Showable := by
  constructor
  · intro htext
    refine not_transGen_of_rank (fun ref => (st.text (.array ref default)).length) ?_
    rintro a b ⟨v, hv, hb⟩
    have hv : st.text v ∈ (st.elements a).toList.map st.text := List.mem_map_of_mem hv
    have hlen := length_le_joinWith ", " hv
    have hsame : st.text v = st.text (.array b default) := textWith_of_arrayRef hb
    rw [hsame] at hlen
    show (st.text (.array b default)).length < (st.text (.array a default)).length
    rw [htext a, String.length_append, String.length_append]
    have hbracket : "[".length = 1 := rfl
    omega
  · exact fun hshow ref span => text_array hst hshow ref span

/-! ### Equality -/

theorem equalWith_congr {f g : ArrayRef → ArrayRef → Bool} {v w : Value}
    (h : ∀ a b, v.arrayRef? = some a → w.arrayRef? = some b → f a b = g a b) :
    v.equalWith f w = v.equalWith g w := by
  induction v generalizing w with
  | array a span =>
    cases w with
    | array b span => rw [Value.equalWith, Value.equalWith, h a b rfl rfl]
    | _ => rfl
  | returned v span ih =>
    cases w with
    | returned w span => exact ih h
    | _ => rfl
  | _ => cases w <;> rfl

theorem pairwise_congr {f g : Value → Value → Bool} {vs ws : List Value}
    (h : ∀ v ∈ vs, ∀ w ∈ ws, f v w = g v w) : pairwise f vs ws = pairwise g vs ws := by
  induction vs generalizing ws with
  | nil => cases ws <;> rfl
  | cons v vs ih =>
    cases ws with
    | nil => rfl
    | cons w ws =>
      rw [pairwise, pairwise, h v List.mem_cons_self w List.mem_cons_self,
        ih fun v hv w hw => h v (List.mem_cons_of_mem _ hv) w (List.mem_cons_of_mem _ hw)]

/-- How elements compare depends on the arrays that are shown on the left. -/
theorem equals_congr {f g : ArrayRef → ArrayRef → Bool} (h : ∀ x, st.Shows a x → f x = g x)
    (ws : List Value) :
    pairwise (Value.equalWith f) (st.elements a).toList ws =
      pairwise (Value.equalWith g) (st.elements a).toList ws := by
  apply pairwise_congr
  intro v hv w _
  apply equalWith_congr
  exact fun x y hx _ => congrFun (h x ⟨v, hv, hx⟩) y

theorem sameElements_congr {rank : ArrayRef → Nat} (hrank : ∀ a b, st.Shows a b → rank b < rank a)
    (hn : rank a < n) (hm : rank a < m) : st.sameElements n a = st.sameElements m a := by
  refine layers_congr (fun n m a h => ?_) hrank hn hm
  funext b
  rw [sameElements, sameElements, equals_congr h]

/-- The equation of the equality of arrays. -/
theorem equal_array (hst : grounded.ObeyedIn st) (hshow : st.Showable) (a b : ArrayRef)
    (s t : Span) :
    st.equal (.array a s) (.array b t) =
      (a == b || pairwise st.equal (st.elements a).toList (st.elements b).toList) := by
  obtain ⟨rank, hle, hrank⟩ := exists_rank (fun _ _ h => h.inner_lt hst) hshow
  have helements : st.sameElements (st.arrays.size + 1) a b =
      pairwise st.equal (st.elements a).toList (st.elements b).toList := by
    rw [sameElements]
    refine equals_congr (fun x hx => ?_) _
    have hlt := hrank _ _ hx
    have hbound := hle a
    exact sameElements_congr hrank (by omega) (by rw [depth]; omega)
  show (a == b || st.sameElements (st.arrays.size + 1) a b) = _
  rw [helements]

end Store

end Dncl
