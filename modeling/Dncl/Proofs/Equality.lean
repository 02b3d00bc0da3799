/-
Dncl/Proofs/Equality.lean

Values are equal if they contain the same.

Arrays are shared, so the arrays of a store form a graph.  Where no array can be
reached from itself, a value unfolds to a tree without places and without
references to arrays (`Store.content`), and two values are equal exactly if
their trees are the same:

    st.equal v w = true  ↔  st.content v = st.content w.

So equality is an equivalence, places play no part in it, and that two
references to one array are not compared further makes no difference.  What can
be read off the tree, like the text and the kind, is the same for equal values.

Design.  Equality, text and tree all go down a number of layers.  They are
compared layer by layer, and `exists_rank_of_outer` shows that the layers of a
store are enough; references to arrays that do not exist do no harm.
-/
import Dncl.Proofs.Nesting
import Dncl.Proofs.Operators

namespace Dncl

open Relation (TransGen ReflTransGen)

variable {v w : Value} {vs ws : List Value}

/-- If the relation has no cycle, and leads on from `n` arrays only, then arrays
can be ranked along it: by the number of arrays that they lead to, themselves
included. -/
theorem exists_rank_of_outer {r : ArrayRef → ArrayRef → Prop} {n : Nat}
    (hn : ∀ a b, r a b → a.index < n) (hr : ∀ a, ¬ TransGen r a a) :
    ∃ rank : ArrayRef → Nat, (∀ a, rank a ≤ n) ∧ ∀ a b, r a b → rank b < rank a := by
  refine exists_rank_of_reached (ReflTransGen r) (fun _ _ hab _ => .head hab) fun a b hab => ?_
  exact ⟨a, hn a b hab, .refl, fun hba => hr a (.head' hab hba)⟩

/-! ### Unfolding -/

/-- What a value contains: a tree without places and references to arrays.  A
function is only told from the others. -/
inductive Content where
  | int (value : Int)
  | str (text : String)
  | bool (value : Bool)
  | array (elements : List Content)
  | null
  | function (ref : ClosureRef)
  | error (message : String)
  | typeError (message : String)
  | returned (value : Content)

/-- The content of a value, if `array` gives that of the elements of an array. -/
def Value.contentWith (array : ArrayRef → List Content) : Value → Content
  | .int value _ => .int value
  | .str text _ => .str text
  | .bool value _ => .bool value
  | .array ref _ => .array (array ref)
  | .null _ => .null
  | .function ref _ => .function ref
  | .error message _ => .error message
  | .typeError message _ => .typeError message
  | .returned value _ => .returned (value.contentWith array)

/-- The value without places. -/
def Value.erase : Value → Value
  | .int value _ => .int value default
  | .str text _ => .str text default
  | .bool value _ => .bool value default
  | .array ref _ => .array ref default
  | .null _ => .null default
  | .function ref _ => .function ref default
  | .error message _ => .error message default
  | .typeError message _ => .typeError message default
  | .returned value _ => .returned value.erase default

namespace Store

/-- The contents of the elements of an array, down to a number of layers. -/
def contents (st : Store) : Nat → ArrayRef → List Content
  | 0, _ => []
  | n + 1, ref => (st.elements ref).toList.map (Value.contentWith (st.contents n))

/-- The content of a value. -/
def content (st : Store) (v : Value) : Content :=
  v.contentWith (st.contents st.depth)

variable {st st' : Store}

theorem contentWith_congr {f g : ArrayRef → List Content}
    (h : ∀ ref, v.arrayRef? = some ref → f ref = g ref) : v.contentWith f = v.contentWith g := by
  induction v with
  | array ref span => exact congrArg Content.array (h ref rfl)
  | returned v span ih => exact congrArg Content.returned (ih h)
  | _ => rfl

/-- The contents of elements depend on the arrays that are shown. -/
theorem contents_layer {f g : ArrayRef → List Content} {ref : ArrayRef}
    (h : ∀ inner, st.Shows ref inner → f inner = g inner) :
    (st.elements ref).toList.map (Value.contentWith f) =
      (st.elements ref).toList.map (Value.contentWith g) := by
  apply List.map_congr_left
  intro v hv
  apply contentWith_congr
  exact fun inner hinner => h inner ⟨v, hv, hinner⟩

/-- The content of an array is that of its elements. -/
theorem content_array (hst : st.Showable) (ref : ArrayRef) (span : Span) :
    st.content (.array ref span) = .array ((st.elements ref).toList.map st.content) := by
  obtain ⟨rank, hle, hrank⟩ := exists_rank_of_outer (fun _ _ h => h.outer_lt) hst
  show Content.array (st.contents (st.arrays.size + 1) ref) = _
  refine congrArg Content.array (contents_layer fun inner hinner => ?_)
  have hlt := hrank _ _ hinner
  have hbound := hle ref
  exact layers_congr (fun _ _ _ => contents_layer) hrank (by omega) (by rw [depth]; omega)

/-! ### Equality -/

/-- Lists agree place by place if their images are the same. -/
theorem pairwise_iff_map {α : Type} {same : Value → Value → Bool} {f : Value → α}
    (h : ∀ v ∈ vs, ∀ w ∈ ws, same v w = true ↔ f v = f w) :
    pairwise same vs ws = true ↔ vs.map f = ws.map f := by
  induction vs generalizing ws with
  | nil => cases ws <;> simp [pairwise]
  | cons v vs ih =>
    cases ws with
    | nil => simp [pairwise]
    | cons w ws =>
      rw [pairwise, Bool.and_eq_true, h v List.mem_cons_self w List.mem_cons_self,
        ih fun v hv w hw => h v (List.mem_cons_of_mem _ hv) w (List.mem_cons_of_mem _ hw),
        List.map_cons, List.map_cons, List.cons.injEq]

/-- Values are equal if they have the same content, where this is true of the
arrays in them. -/
theorem equalWith_iff {same : ArrayRef → ArrayRef → Bool} {f : ArrayRef → List Content}
    (h : ∀ a b, v.arrayRef? = some a → w.arrayRef? = some b → (same a b = true ↔ f a = f b)) :
    v.equalWith same w = true ↔ v.contentWith f = w.contentWith f := by
  induction v generalizing w with
  | array a span =>
    cases w with
    | array b span =>
      rw [Value.equalWith, Bool.or_eq_true, beq_iff_eq, h a b rfl rfl, Value.contentWith,
        Value.contentWith, Content.array.injEq]
      -- one array has the same content as itself
      exact or_iff_right_of_imp (congrArg f)
    | _ => simp [Value.equalWith, Value.contentWith]
  | returned v span ih =>
    cases w with
    | returned w span =>
      rw [Value.equalWith, ih (w := w) h, Value.contentWith, Value.contentWith,
        Content.returned.injEq]
    | _ => simp [Value.equalWith, Value.contentWith]
  | _ => cases w <;> simp [Value.equalWith, Value.contentWith]

theorem sameElements_iff {rank : ArrayRef → Nat} (hrank : ∀ a b, st.Shows a b → rank b < rank a)
    {n : Nat} {a b : ArrayRef} (ha : rank a < n) (hb : rank b < n) :
    st.sameElements n a b = true ↔ st.contents n a = st.contents n b := by
  induction n generalizing a b with
  | zero => cases ha
  | succ n ih =>
    apply pairwise_iff_map
    intro v hv w hw
    apply equalWith_iff
    intro x y hx hy
    have hltx := hrank _ _ ⟨v, hv, hx⟩
    have hlty := hrank _ _ ⟨w, hw, hy⟩
    exact ih (by omega) (by omega)

/-- **Values are equal if they contain the same.** -/
theorem equal_iff (hst : st.Showable) (v w : Value) :
    st.equal v w = true ↔ st.content v = st.content w := by
  obtain ⟨rank, hle, hrank⟩ := exists_rank_of_outer (fun _ _ h => h.outer_lt) hst
  have hdepth : ∀ ref, rank ref < st.depth := fun ref => Nat.lt_succ_of_le (hle ref)
  exact equalWith_iff fun a b _ _ => sameElements_iff hrank (hdepth a) (hdepth b)

/-- Arrays are compared element by element, an array with itself too. -/
theorem equal_array_elements (hst : st.Showable) (a b : ArrayRef) (s t : Span) :
    st.equal (.array a s) (.array b t) =
      pairwise st.equal (st.elements a).toList (st.elements b).toList := by
  rw [Bool.eq_iff_iff, equal_iff hst, content_array hst, content_array hst, Content.array.injEq,
    pairwise_iff_map fun v _ w _ => equal_iff hst v w]

theorem equivalence_equal (hst : st.Showable) :
    Equivalence fun v w => st.equal v w = true := by
  simp only [equal_iff hst]
  exact ⟨fun _ => rfl, Eq.symm, Eq.trans⟩

/-! ### What is read off the content -/

theorem map_eq_of_map_eq {α β : Type} {f : Value → α} {g : Value → β}
    (hfg : ∀ v w, f v = f w → g v = g w) (h : vs.map f = ws.map f) : vs.map g = ws.map g := by
  induction vs generalizing ws with
  | nil =>
    cases ws with
    | nil => rfl
    | cons w ws => cases h
  | cons v vs ih =>
    cases ws with
    | nil => cases h
    | cons w ws =>
      obtain ⟨hv, hvs⟩ := List.cons.inj h
      exact congrArg₂ List.cons (hfg v w hv) (ih hvs)

theorem textWith_of_contentWith {array : ArrayRef → String} {f : ArrayRef → List Content}
    (hf : ∀ a b, f a = f b → array a = array b) (h : v.contentWith f = w.contentWith f) :
    v.textWith st array = w.textWith st array := by
  induction v generalizing w with
  | array a span =>
    cases w with
    | array b span => exact hf a b (Content.array.inj h)
    | _ => cases h
  | returned v span ih =>
    cases w with
    | returned w span => exact ih (w := w) (Content.returned.inj h)
    | _ => cases h
  | _ =>
    cases w
    all_goals cases h
    all_goals rfl

/-- Values with the same content have the same text. -/
theorem text_of_content (h : st.content v = st.content w) : st.text v = st.text w := by
  -- each layer of the text depends on as many layers of the content
  have harray : ∀ n a b, st.contents n a = st.contents n b →
      st.arrayText n a = st.arrayText n b := by
    intro n
    induction n with
    | zero => exact fun _ _ _ => rfl
    | succ n ih =>
      intro a b hab
      have hvalues : ∀ v w : Value, v.contentWith (st.contents n) = w.contentWith (st.contents n) →
          v.textWith st (st.arrayText n) = w.textWith st (st.arrayText n) :=
        fun _ _ => textWith_of_contentWith ih
      rw [arrayText, arrayText, map_eq_of_map_eq hvalues hab]
  exact textWith_of_contentWith (harray st.depth) h

theorem kind_of_equal (h : st.equal v w = true) : v.kind = w.kind := by
  by_contra hkind
  rw [equal_of_kind_ne hkind] at h
  cases h

/-! ### Places -/

/-- The arrays of the stores are the same but for places. -/
def SameArrays (st st' : Store) : Prop :=
  st'.arrays.map (Array.map Value.erase) = st.arrays.map (Array.map Value.erase)

theorem equalWith_erase (same : ArrayRef → ArrayRef → Bool) (v w : Value) :
    v.erase.equalWith same w.erase = v.equalWith same w := by
  induction v generalizing w with
  | returned v span ih =>
    cases w with
    | returned w span => exact ih w
    | _ => rfl
  | _ => cases w <;> rfl

theorem pairwise_erase (same : ArrayRef → ArrayRef → Bool) (vs ws : List Value) :
    pairwise (Value.equalWith same) (vs.map Value.erase) (ws.map Value.erase) =
      pairwise (Value.equalWith same) vs ws := by
  induction vs generalizing ws with
  | nil => cases ws <;> rfl
  | cons v vs ih =>
    cases ws with
    | nil => rfl
    | cons w ws =>
      rw [List.map_cons, List.map_cons, pairwise, pairwise, equalWith_erase, ih]

theorem SameArrays.elements (h : st.SameArrays st') (ref : ArrayRef) :
    (st'.elements ref).toList.map Value.erase = (st.elements ref).toList.map Value.erase := by
  have herase : ∀ st : Store, (st.elements ref).toList.map Value.erase =
      ((st.arrays.map (Array.map Value.erase)).getD ref.index #[]).toList := by
    intro st
    simp only [Store.elements, Array.getD_eq_getD_getElem?, Array.getElem?_map]
    cases st.arrays[ref.index]? <;> simp
  rw [herase, herase, h]

theorem SameArrays.sameElements (h : st.SameArrays st') (n : Nat) (a b : ArrayRef) :
    st'.sameElements n a b = st.sameElements n a b := by
  induction n generalizing a b with
  | zero => rfl
  | succ n ih =>
    rw [Store.sameElements, Store.sameElements, ← pairwise_erase, h.elements a, h.elements b,
      pairwise_erase, show st'.sameElements n = st.sameElements n from funext₂ ih]

/-- Where values, and those in arrays, were produced does not matter. -/
theorem SameArrays.equal (h : st.SameArrays st') {v' w' : Value} (hv : v'.erase = v.erase)
    (hw : w'.erase = w.erase) : st'.equal v' w' = st.equal v w := by
  have hsize : st'.arrays.size = st.arrays.size := by
    simpa using congrArg Array.size h
  have hsame : st'.sameElements st'.depth = st.sameElements st.depth := by
    rw [depth, hsize]
    exact funext₂ (h.sameElements st.depth)
  rw [Store.equal, Store.equal, hsame, ← equalWith_erase, hv, hw, equalWith_erase]

end Store

/-! ### Main result -/

/-- Equality of the values of a store is an equivalence that compares what they
contain, and the operators agree with it. -/
structure ComparesContents (st : Store) : Prop where
  equivalence : Equivalence fun v w => st.equal v w = true
  unfolded : ∀ v w, st.equal v w = true ↔ st.content v = st.content w
  content : ∀ ref span,
    st.content (.array ref span) = .array ((st.elements ref).toList.map st.content)
  /-- There is no shortcut for an array that is compared with itself. -/
  elementwise : ∀ a b s t, st.equal (.array a s) (.array b t) =
    pairwise st.equal (st.elements a).toList (st.elements b).toList
  placeless : ∀ st' v v' w w', st.SameArrays st' → v'.erase = v.erase → w'.erase = w.erase →
    st'.equal v' w' = st.equal v w
  text : ∀ v w, st.equal v w = true → st.text v = st.text w
  kind : ∀ v w, st.equal v w = true → v.kind = w.kind
  equal : ∀ l r span, applyInfix st (.symbol .equal) l r span = .bool (st.equal l r) span
  notEqual : ∀ l r span, applyInfix st (.symbol .notEqual) l r span = .bool (!st.equal l r) span

/-- **Equality compares contents**, in every store in which no array can be reached
from itself. -/
theorem equality_compares_contents (st : Store) (hst : st.Showable) : ComparesContents st where
  equivalence := Store.equivalence_equal hst
  unfolded := Store.equal_iff hst
  content := Store.content_array hst
  elementwise := Store.equal_array_elements hst
  placeless _ _ _ _ _ hsame hv hw := hsame.equal hv hw
  text v w h := Store.text_of_content ((Store.equal_iff hst v w).1 h)
  kind _ _ h := Store.kind_of_equal h
  equal l r span := (applyInfix_equality st l r span).1
  notEqual l r span := (applyInfix_equality st l r span).2

/-- The array 1 holds the array 0 twice; the array 3 holds it and a copy. -/
def sharingStore : Store :=
  ⟨#[], #[#[.int 1 ⟨0, 1⟩], #[.array ⟨0⟩ ⟨2, 3⟩, .array ⟨0⟩ ⟨4, 5⟩], #[.int 1 ⟨6, 7⟩],
    #[.array ⟨0⟩ ⟨8, 9⟩, .array ⟨2⟩ ⟨10, 11⟩]], #[]⟩

theorem sharingStore_showable : sharingStore.Showable := by
  -- arrays hold only arrays that are older
  refine not_transGen_of_rank ArrayRef.index ?_
  rintro ⟨i⟩ b hshows
  have hlt : i < 4 := hshows.outer_lt
  obtain ⟨v, hv, hb⟩ := hshows
  have hcases : i = 0 ∨ i = 1 ∨ i = 2 ∨ i = 3 := by omega
  rcases hcases with rfl | rfl | rfl | rfl
  all_goals
    simp [sharingStore, Store.elements] at hv
    rcases hv with rfl | rfl <;> cases hb <;> decide

/-- Sharing is not seen by equality. -/
theorem equality_compares_contents_sharing :
    sharingStore.Showable ∧
      sharingStore.content (.array ⟨1⟩ default) = .array [.array [.int 1], .array [.int 1]] ∧
      sharingStore.equal (.array ⟨1⟩ default) (.array ⟨3⟩ default) = true ∧
      sharingStore.equal (.array ⟨1⟩ default) (.array ⟨0⟩ default) = false := by
  have hspec := equality_compares_contents sharingStore sharingStore_showable
  refine ⟨sharingStore_showable, rfl, (hspec.unfolded _ _).2 rfl, ?_⟩
  rw [hspec.elementwise]
  rfl

end Dncl
