/-
Dncl/Proofs/Operators.lean

Operators are exact on all values.

What an operator comes to is said here a second time, kind by kind, in terms of
the integers, of linear orders and of texts:

* `+`, `-` and `*` by `Token.arithmetic?`, in exact integers;
* the divisions by their defining equation (`DividesExactly`);
* the comparisons by a linear order (`Compares`), which is that of the integers
  or the lexicographic one of code points;
* concatenation by the texts of its operands (`Value.written?`).

`Token.applies` and `Token.appliesTo` list the kinds of operands that have a
meaning.  Whatever is not listed is a type error that names the operator and the
kinds.
-/
import Mathlib.Data.List.Lex
import Mathlib.Data.Nat.Digits.Defs
import Mathlib.Data.String.Basic
import Dncl.Proofs.Range

namespace Dncl

variable {a b n result : Int} {l r : Value} {op : Token}

/-! ### Texts -/

namespace Text

/-- The decimal text of an integer: a sign if it is negative, and its digits from
the highest on. -/
def decimal (n : Int) : List Char :=
  (if n < 0 then ['-'] else []) ++
    if n = 0 then ['0'] else ((Nat.digits 10 n.natAbs).map Nat.digitChar).reverse

theorem toDigits_eq_digits {n : Nat} (hn : n ≠ 0) :
    Nat.toDigits 10 n = ((Nat.digits 10 n).map Nat.digitChar).reverse := by
  induction n using Nat.strongRecOn with
  | ind n ih =>
    rw [Nat.toDigits_eq_if (by decide), Nat.digits_def' (by decide) (Nat.pos_of_ne_zero hn),
      List.map_cons, List.reverse_cons]
    split
    · rename_i hlt
      rw [Nat.mod_eq_of_lt hlt, Nat.div_eq_of_lt hlt]
      rfl
    · rename_i hge
      rw [ih (n / 10) (by omega) (by omega)]

theorem toList_toString (n : Int) : (toString n).toList = decimal n := by
  cases n with
  | ofNat n =>
    have hsign : ¬ (Int.ofNat n) < 0 := Int.not_lt.2 (Int.natCast_nonneg n)
    rw [decimal, if_neg hsign, List.nil_append, show toString (Int.ofNat n) = n.repr from rfl,
      Nat.repr_eq_ofList_toDigits, String.toList_ofList]
    split
    · rename_i hzero
      rw [Int.ofNat_eq_zero.1 hzero]
      rfl
    · rename_i hne
      exact toDigits_eq_digits fun hzero => hne (congrArg Int.ofNat hzero)
  | negSucc n =>
    rw [decimal, if_pos (Int.negSucc_lt_zero n), if_neg (Int.negSucc_ne_zero n),
      show toString (Int.negSucc n) = "-" ++ n.succ.repr from rfl, String.toList_append,
      Nat.repr_eq_ofList_toDigits, toDigits_eq_digits (Nat.succ_ne_zero n), String.toList_ofList,
      String.toList_ofList]
    rfl

/-- The code points of a text. -/
def codePoints (s : String) : List Nat :=
  s.toList.map Char.toNat

/-- Texts are ordered as their code points are. -/
theorem codePoints_strictMono : StrictMono codePoints := by
  intro a b hab
  apply List.map_lt
  · intro x y hxy
    exact hxy
  · exact String.lt_iff_toList_lt.1 hab

end Text

/-! ### Integers -/

theorem Text.checked_of_fits (h : Text.Fits n) : Text.checked n = some n :=
  if_pos h

theorem Text.checked_of_not_fits (h : ¬ Text.Fits n) : Text.checked n = none :=
  if_neg h

/-- What `+`, `-` and `*` come to in exact integers. -/
def Token.arithmetic? (op : Token) (a b : Int) : Option Int :=
  match op with
  | .symbol .plus => some (a + b)
  | .symbol .minus => some (a - b)
  | .symbol .times => some (a * b)
  | _ => none

/-- The operators that divide. -/
def Token.divisions : List Token :=
  [.symbol .slash, .symbol .intDiv, .symbol .percent]

theorem exactly_of_fits (h : Text.Fits n) (span : Span) : exactly n span = .int n span := by
  rw [exactly, Text.checked_of_fits h]

theorem exactly_of_not_fits (h : ¬ Text.Fits n) (span : Span) :
    exactly n span = Fault.overflow.valueAt span := by
  rw [exactly, Text.checked_of_not_fits h]

theorem divided_of_zero (a result : Int) (span : Span) :
    divided a 0 result span = Fault.divisionByZero.valueAt span := by
  rw [divided, if_pos rfl]

theorem divided_of_fits (hb : b ≠ 0) (h : Text.Fits (a.tdiv b)) (result : Int) (span : Span) :
    divided a b result span = .int result span := by
  rw [divided, if_neg hb, Text.checked_of_fits h]
  rfl

theorem divided_of_not_fits (hb : b ≠ 0) (h : ¬ Text.Fits (a.tdiv b)) (result : Int) (span : Span) :
    divided a b result span = Fault.overflow.valueAt span := by
  rw [divided, if_neg hb, Text.checked_of_not_fits h]
  rfl

theorem divided_eq_divisionByZero {span : Span} :
    divided a b result span = Fault.divisionByZero.valueAt span ↔ b = 0 := by
  constructor
  · intro h
    by_contra hb
    by_cases hfits : Text.Fits (a.tdiv b)
    · rw [divided_of_fits hb hfits] at h
      cases h
    · rw [divided_of_not_fits hb hfits] at h
      exact absurd (Value.error.inj h).1 (by decide)
  · rintro rfl
    exact divided_of_zero a result span

theorem divided_eq_overflow {span : Span} :
    divided a b result span = Fault.overflow.valueAt span ↔ b ≠ 0 ∧ ¬ Text.Fits (a.tdiv b) := by
  constructor
  · intro h
    by_cases hb : b = 0
    · rw [hb, divided_of_zero] at h
      exact absurd (Value.error.inj h).1 (by decide)
    · refine ⟨hb, fun hfits => ?_⟩
      rw [divided_of_fits hb hfits] at h
      cases h
  · rintro ⟨hb, hfits⟩
    exact divided_of_not_fits hb hfits result span

/-- The remainder is zero or has the sign of the dividend. -/
theorem tmod_eq_zero_or_sign (a b : Int) : a.tmod b = 0 ∨ (a.tmod b).sign = a.sign := by
  rw [Int.sign_tmod]
  split
  · exact .inl (Int.tmod_eq_zero_of_dvd ‹_›)
  · exact .inr rfl

theorem natAbs_tmod_lt (a : Int) (hb : b ≠ 0) : (a.tmod b).natAbs < b.natAbs := by
  rw [Int.natAbs_tmod]
  exact Nat.mod_lt _ (Int.natAbs_pos.2 hb)

/-- The remainder lies between zero and the dividend. -/
theorem fits_tmod (ha : Text.Fits a) (b : Int) : Text.Fits (a.tmod b) := by
  have hle : (a.tmod b).natAbs ≤ a.natAbs := by
    rw [Int.natAbs_tmod]
    exact Nat.mod_le _ _
  simp only [Text.Fits, Text.minInt, Text.maxInt] at ha ⊢
  rcases tmod_eq_zero_or_sign a b with h | h
  · omega
  · rcases Int.lt_trichotomy a 0 with hneg | hzero | hpos
    · have hneg' := Int.sign_eq_neg_one_iff_neg.1 (h.trans (Int.sign_eq_neg_one_of_neg hneg))
      omega
    · omega
    · have hpos' := Int.sign_eq_one_iff_pos.1 (h.trans (Int.sign_eq_one_of_pos hpos))
      omega

/-- The integers `a` and `b` of the values `l` and `r` are divided exactly.  The
quotient goes toward zero, since the remainder has the sign of the dividend. -/
structure DividesExactly (st : Store) (span : Span) (l r : Value) (a b : Int) : Prop where
  byZero : ∀ op ∈ Token.divisions,
    applyInfix st op l r span = Fault.divisionByZero.valueAt span ↔ b = 0
  overflow : ∀ op ∈ Token.divisions,
    applyInfix st op l r span = Fault.overflow.valueAt span ↔ b ≠ 0 ∧ ¬ Text.Fits (a.tdiv b)
  exact : b ≠ 0 → Text.Fits (a.tdiv b) → ∃ q m, a = q * b + m ∧ m.natAbs < b.natAbs ∧
    (m = 0 ∨ m.sign = a.sign) ∧ Text.Fits q ∧ (Text.Fits a → Text.Fits m) ∧
    applyInfix st (.symbol .slash) l r span = .int q span ∧
    applyInfix st (.symbol .intDiv) l r span = .int q span ∧
    applyInfix st (.symbol .percent) l r span = .int m span

theorem dividesExactly_int (st : Store) (span s t : Span) (a b : Int) :
    DividesExactly st span (.int a s) (.int b t) a b where
  byZero op hop := by
    simp only [Token.divisions, List.mem_cons, List.not_mem_nil, or_false] at hop
    rcases hop with rfl | rfl | rfl <;> exact divided_eq_divisionByZero
  overflow op hop := by
    simp only [Token.divisions, List.mem_cons, List.not_mem_nil, or_false] at hop
    rcases hop with rfl | rfl | rfl <;> exact divided_eq_overflow
  exact hb hfits := by
    have hdef : a = a.tdiv b * b + a.tmod b := by
      rw [Int.tdiv_mul_self]
      omega
    exact ⟨a.tdiv b, a.tmod b, hdef, natAbs_tmod_lt a hb, tmod_eq_zero_or_sign a b, hfits,
      fun ha => fits_tmod ha b, divided_of_fits hb hfits _ _, divided_of_fits hb hfits _ _,
      divided_of_fits hb hfits _ _⟩

/-! ### Comparisons -/

/-- The comparisons of the values `l` and `r` are those of `a` and `b` in a linear
order. -/
structure Compares {α : Type} [LinearOrder α] (st : Store) (span : Span) (l r : Value)
    (a b : α) : Prop where
  less : applyInfix st (.symbol .less) l r span = .bool (decide (a < b)) span
  lessEqual : applyInfix st (.symbol .lessEqual) l r span = .bool (decide (a ≤ b)) span
  greater : applyInfix st (.symbol .greater) l r span = .bool (decide (b < a)) span
  greaterEqual : applyInfix st (.symbol .greaterEqual) l r span = .bool (decide (b ≤ a)) span
  equal : applyInfix st (.symbol .equal) l r span = .bool (decide (a = b)) span
  notEqual : applyInfix st (.symbol .notEqual) l r span = .bool (decide (a ≠ b)) span

/-- Less, equal and greater. -/
def Token.orders : List Token :=
  [.symbol .less, .symbol .equal, .symbol .greater]

/-- Exactly one of less, equal and greater is true. -/
theorem Compares.existsUnique {α : Type} [LinearOrder α] {st : Store} {span : Span} {a b : α}
    (h : Compares st span l r a b) :
    ∃! op, op ∈ Token.orders ∧ applyInfix st op l r span = .bool true span := by
  have htrue : ∀ {p : Prop} [Decidable p], Value.bool (decide p) span = .bool true span ↔ p := by
    intro p _
    simp
  have hall : ∀ op, op ∈ Token.orders ∧ applyInfix st op l r span = .bool true span ↔
      op = .symbol .less ∧ a < b ∨ op = .symbol .equal ∧ a = b ∨
        op = .symbol .greater ∧ b < a := by
    intro op
    simp only [Token.orders, List.mem_cons, List.not_mem_nil, or_false]
    constructor
    · rintro ⟨rfl | rfl | rfl, hop⟩
      · exact .inl ⟨rfl, htrue.1 (h.less.symm.trans hop)⟩
      · exact .inr (.inl ⟨rfl, htrue.1 (h.equal.symm.trans hop)⟩)
      · exact .inr (.inr ⟨rfl, htrue.1 (h.greater.symm.trans hop)⟩)
    · rintro (⟨rfl, hab⟩ | ⟨rfl, hab⟩ | ⟨rfl, hab⟩)
      · exact ⟨.inl rfl, h.less.trans (htrue.2 hab)⟩
      · exact ⟨.inr (.inl rfl), h.equal.trans (htrue.2 hab)⟩
      · exact ⟨.inr (.inr rfl), h.greater.trans (htrue.2 hab)⟩
  simp only [hall]
  rcases lt_trichotomy a b with hlt | heq | hgt
  · refine ⟨_, .inl ⟨rfl, hlt⟩, ?_⟩
    rintro op (⟨rfl, -⟩ | ⟨-, heq⟩ | ⟨-, hgt⟩)
    · rfl
    · exact absurd heq hlt.ne
    · exact absurd hgt hlt.asymm
  · refine ⟨_, .inr (.inl ⟨rfl, heq⟩), ?_⟩
    rintro op (⟨-, hlt⟩ | ⟨rfl, -⟩ | ⟨-, hgt⟩)
    · exact absurd heq hlt.ne
    · rfl
    · exact absurd heq.symm hgt.ne
  · refine ⟨_, .inr (.inr ⟨rfl, hgt⟩), ?_⟩
    rintro op (⟨-, hlt⟩ | ⟨-, heq⟩ | ⟨rfl, -⟩)
    · exact absurd hgt hlt.asymm
    · exact absurd heq.symm hgt.ne
    · rfl

theorem compares_int (st : Store) (span s t : Span) (a b : Int) :
    Compares st span (.int a s) (.int b t) a b where
  less := rfl
  lessEqual := rfl
  greater := rfl
  greaterEqual := rfl
  equal := rfl
  notEqual := congrArg (Value.bool · span) (by simp [bne, beq_eq_decide])

theorem compares_str (st : Store) (span s t : Span) (a b : String) :
    Compares st span (.str a s) (.str b t) (Text.codePoints a) (Text.codePoints b) := by
  have hlt : ∀ a b : String, Text.codePoints a < Text.codePoints b ↔ a < b :=
    fun a b => Text.codePoints_strictMono.lt_iff_lt
  have heq : Text.codePoints a = Text.codePoints b ↔ a = b :=
    Text.codePoints_strictMono.injective.eq_iff
  have hbool : ∀ {x y : Bool}, x = y → Value.bool x span = .bool y span := by
    rintro x _ rfl
    rfl
  refine ⟨hbool ?_, hbool ?_, hbool ?_, hbool ?_, hbool ?_, hbool ?_⟩
  · exact decide_eq_decide.2 (hlt a b).symm
  · rw [← decide_not]
    exact decide_eq_decide.2 ((not_congr (hlt b a).symm).trans not_lt)
  · exact decide_eq_decide.2 (hlt b a).symm
  · rw [← decide_not]
    exact decide_eq_decide.2 ((not_congr (hlt a b).symm).trans not_lt)
  · rw [beq_eq_decide]
    exact decide_eq_decide.2 heq.symm
  · rw [bne, beq_eq_decide, ← decide_not]
    exact decide_eq_decide.2 (not_congr heq.symm)

/-! ### Meaning by kinds -/

/-- The texts that can be joined: a text itself, and an integer in decimal. -/
def Value.written? : Value → Option String
  | .str text _ => some text
  | .int n _ => some (String.ofList (Text.decimal n))
  | _ => none

/-- The kinds of operands between which an operator has a meaning. -/
def Token.applies (op : Token) (left right : Kind) : Bool :=
  match op with
  | .symbol .equal | .symbol .notEqual => true
  | .symbol .plus => (left == .int || left == .str) && (right == .int || right == .str)
  | .symbol .minus | .symbol .times => left == .int && right == .int
  | .symbol .slash | .symbol .intDiv | .symbol .percent => left == .int && right == .int
  | .symbol .less | .symbol .lessEqual => left == right && (left == .int || left == .str)
  | .symbol .greater | .symbol .greaterEqual => left == right && (left == .int || left == .str)
  | .keyword .andWord | .keyword .orWord => left == .bool && right == .bool
  | _ => false

/-- The kinds of operands before which an operator has a meaning. -/
def Token.appliesTo (op : Token) (kind : Kind) : Bool :=
  match op with
  | .symbol .minus | .symbol .plus => kind == .int
  | .keyword .notWord => kind == .bool
  | _ => false

/-- Where neither joining nor an operator on two values of one kind has a meaning,
operands can only be compared for being equal. -/
theorem applies_eq {left right : Kind}
    (hplus : op = .symbol .plus → ¬ ((left = .int ∨ left = .str) ∧ (right = .int ∨ right = .str)))
    (hsame : left = right → left ≠ .int ∧ left ≠ .str ∧ left ≠ .bool) :
    op.applies left right = decide (op = .symbol .equal ∨ op = .symbol .notEqual) := by
  rw [Token.applies.eq_def]
  split <;> grind

theorem isSome_anyInfix (st : Store) (op : Token) (l r : Value) (span : Span) :
    (anyInfix? st op l r span).isSome =
      decide (op = .symbol .equal ∨ op = .symbol .notEqual) := by
  rw [anyInfix?.eq_def]
  split
  · rfl
  · rfl
  · rename_i hequal hnot
    exact (decide_eq_false (not_or.2 ⟨hequal, hnot⟩)).symm

theorem isSome_intInfix (op : Token) (a b : Int) (span : Span) :
    (intInfix? op a b span).isSome = op.applies .int .int := by
  cases op with
  | symbol s => cases s <;> rfl
  | keyword k => cases k <;> rfl
  | _ => rfl

theorem isSome_strInfix (op : Token) (a b : String) (span : Span) :
    (strInfix? op a b span).isSome = op.applies .str .str := by
  cases op with
  | symbol s => cases s <;> rfl
  | keyword k => cases k <;> rfl
  | _ => rfl

theorem isSome_boolInfix (op : Token) (a b : Bool) (span : Span) :
    (boolInfix? op a b span).isSome = op.applies .bool .bool := by
  cases op with
  | symbol s => cases s <;> rfl
  | keyword k => cases k <;> rfl
  | _ => rfl

/-- An operator has a meaning exactly for the kinds that are listed. -/
theorem isSome_combine (st : Store) (op : Token) (l r : Value) (span : Span) :
    (combine? st op l r span).isSome = op.applies l.kind r.kind := by
  rw [combine?.eq_def]
  split
  · exact isSome_intInfix ..
  · exact isSome_strInfix ..
  · split
    · rename_i hop
      rw [hop]
      rfl
    · rename_i hop
      rw [isSome_anyInfix, applies_eq (fun h => absurd h hop) (by rintro ⟨⟩)]
  · split
    · rename_i hop
      rw [hop]
      rfl
    · rename_i hop
      rw [isSome_anyInfix, applies_eq (fun h => absurd h hop) (by rintro ⟨⟩)]
  · exact isSome_boolInfix ..
  · rename_i hints hstrs hstrInt hintStr hbools
    rw [isSome_anyInfix, applies_eq]
    · -- no pair of the kinds that have operators of their own is left
      rintro - ⟨hl, hr⟩
      cases l <;> simp [Value.kind] at hl
      all_goals cases r <;> simp [Value.kind] at hr
      · exact hints _ _ _ _ rfl rfl
      · exact hintStr _ _ _ _ rfl rfl
      · exact hstrInt _ _ _ _ rfl rfl
      · exact hstrs _ _ _ _ rfl rfl
    · intro hsame
      refine ⟨?_, ?_, ?_⟩ <;> intro hl
      all_goals
        rw [hl] at hsame
        cases l <;> cases hl
        cases r <;> cases hsame
      · exact hints _ _ _ _ rfl rfl
      · exact hstrs _ _ _ _ rfl rfl
      · exact hbools _ _ _ _ rfl rfl

/-- An operator between two values without a meaning is a type error. -/
theorem applyInfix_of_not_applies (h : op.applies l.kind r.kind = false) (st : Store)
    (span : Span) :
    applyInfix st op l r span = .typeError (Fault.operands op l.kind r.kind).message span := by
  rw [← isSome_combine st op l r span, Option.isSome_eq_false_iff, Option.isNone_iff_eq_none] at h
  rw [applyInfix, h]
  rfl

/-- An operator before a value without a meaning is a type error. -/
theorem applyPrefix_of_not_applies {v : Value} (h : op.appliesTo v.kind = false) (span : Span) :
    applyPrefix op v span = .typeError (Fault.operand op v.kind).message span := by
  rw [applyPrefix.eq_def]
  split
  · cases h
  · cases h
  · cases h
  · rfl

theorem applyInfix_exact (h : op.arithmetic? a b = some n) (st : Store) (s t span : Span) :
    applyInfix st op (.int a s) (.int b t) span = exactly n span := by
  rw [Token.arithmetic?.eq_def] at h
  split at h <;> cases h <;> rfl

/-- Texts and integers are joined if one of them is a text. -/
theorem applyInfix_written {a b : String} (hl : l.written? = some a) (hr : r.written? = some b)
    (hstr : l.kind = .str ∨ r.kind = .str) (st : Store) (span : Span) :
    applyInfix st (.symbol .plus) l r span = .str (a ++ b) span := by
  have hdecimal : ∀ n : Int, String.ofList (Text.decimal n) = toString n := by
    intro n
    rw [← Text.toList_toString, String.ofList_toList]
  cases l with
  | str x s =>
    cases hl
    cases r with
    | str y t =>
      cases hr
      rfl
    | int n t =>
      cases hr
      rw [hdecimal]
      rfl
    | _ => cases hr
  | int n s =>
    cases hl
    cases r with
    | str y t =>
      cases hr
      rw [hdecimal]
      rfl
    | int k t => exact hstr.elim (by rintro ⟨⟩) (by rintro ⟨⟩)
    | _ => cases hr
  | _ => cases hl

/-- Values of different kinds are not equal. -/
theorem equal_of_kind_ne (h : l.kind ≠ r.kind) (st : Store) : st.equal l r = false := by
  rw [Store.equal, Value.equalWith.eq_def]
  split <;> first | rfl | exact absurd rfl h

theorem applyInfix_equality (st : Store) (l r : Value) (span : Span) :
    applyInfix st (.symbol .equal) l r span = .bool (st.equal l r) span ∧
      applyInfix st (.symbol .notEqual) l r span = .bool (!st.equal l r) span := by
  rw [applyInfix, applyInfix, combine?.eq_def, combine?.eq_def]
  split <;> exact ⟨rfl, rfl⟩

/-! ### Main result -/

/-- The operators between two values come to what they should, at the place
`span`. -/
structure InfixExact (st : Store) (span : Span) : Prop where
  located : ∀ op l r, (applyInfix st op l r span).span = span
  exact : ∀ op a b n s t, op.arithmetic? a b = some n → Text.Fits n →
    applyInfix st op (.int a s) (.int b t) span = .int n span
  overflow : ∀ op a b n s t, op.arithmetic? a b = some n → ¬ Text.Fits n →
    applyInfix st op (.int a s) (.int b t) span = Fault.overflow.valueAt span
  divides : ∀ a b s t, DividesExactly st span (.int a s) (.int b t) a b
  numeric : ∀ a b s t, Compares st span (.int a s) (.int b t) a b
  lexical : ∀ a b s t,
    Compares st span (.str a s) (.str b t) (Text.codePoints a) (Text.codePoints b)
  trichotomy : ∀ l r, l.kind = r.kind → l.kind = .int ∨ l.kind = .str →
    ∃! op, op ∈ Token.orders ∧ applyInfix st op l r span = .bool true span
  joined : ∀ l r a b, l.written? = some a → r.written? = some b →
    l.kind = .str ∨ r.kind = .str →
    applyInfix st (.symbol .plus) l r span = .str (a ++ b) span
  both : ∀ a b s t,
    applyInfix st (.keyword .andWord) (.bool a s) (.bool b t) span = .bool (a && b) span
  either : ∀ a b s t,
    applyInfix st (.keyword .orWord) (.bool a s) (.bool b t) span = .bool (a || b) span
  equality : ∀ l r, ∃ same, applyInfix st (.symbol .equal) l r span = .bool same span ∧
    applyInfix st (.symbol .notEqual) l r span = .bool (!same) span ∧
    (l.kind ≠ r.kind → same = false)
  otherwise : ∀ op l r, op.applies l.kind r.kind = false →
    applyInfix st op l r span = .typeError (Fault.operands op l.kind r.kind).message span

/-- The operators before a value come to what they should, at the place `span`. -/
structure PrefixExact (span : Span) : Prop where
  located : ∀ op v, (applyPrefix op v span).span = span
  negated : ∀ n s, Text.Fits (-n) → applyPrefix (.symbol .minus) (.int n s) span = .int (-n) span
  overflow : ∀ n s, ¬ Text.Fits (-n) →
    applyPrefix (.symbol .minus) (.int n s) span = Fault.overflow.valueAt span
  same : ∀ n s, applyPrefix (.symbol .plus) (.int n s) span = .int n span
  complement : ∀ b s, applyPrefix (.keyword .notWord) (.bool b s) span = .bool (!b) span
  otherwise : ∀ op v, op.appliesTo v.kind = false →
    applyPrefix op v span = .typeError (Fault.operand op v.kind).message span

/-- An operator puts its own span on its result. -/
theorem span_applyInfix (st : Store) (op : Token) (a b : Value) (span : Span) :
    (applyInfix st op a b span).span = span :=
  (Machine.computed_applyInfix st op a b span).span_eq

theorem span_applyPrefix (op : Token) (v : Value) (span : Span) :
    (applyPrefix op v span).span = span :=
  (Machine.computed_applyPrefix op v span).span_eq

/-- **Operators are exact**, on all values, at every place and for every token as
operator. -/
theorem operators_exact (st : Store) (span : Span) : InfixExact st span ∧ PrefixExact span := by
  refine ⟨?_, ?_⟩
  · constructor
    case located => exact fun op l r => span_applyInfix st op l r span
    case exact =>
      intro op a b n s t hn hfits
      rw [applyInfix_exact hn, exactly_of_fits hfits]
    case overflow =>
      intro op a b n s t hn hfits
      rw [applyInfix_exact hn, exactly_of_not_fits hfits]
    case divides => exact fun a b s t => dividesExactly_int st span s t a b
    case numeric => exact fun a b s t => compares_int st span s t a b
    case lexical => exact fun a b s t => compares_str st span s t a b
    case trichotomy =>
      intro l r hsame hkind
      rcases hkind with hint | hstr
      · cases l <;> cases hint
        cases r <;> cases hsame
        exact (compares_int st span ..).existsUnique
      · cases l <;> cases hstr
        cases r <;> cases hsame
        exact (compares_str st span ..).existsUnique
    case joined => exact fun l r a b hl hr hstr => applyInfix_written hl hr hstr st span
    case both => exact fun a b s t => rfl
    case either => exact fun a b s t => rfl
    case equality =>
      intro l r
      obtain ⟨hequal, hnot⟩ := applyInfix_equality st l r span
      exact ⟨st.equal l r, hequal, hnot, fun hkind => equal_of_kind_ne hkind st⟩
    case otherwise => exact fun op l r h => applyInfix_of_not_applies h st span
  · constructor
    case located => exact fun op v => span_applyPrefix op v span
    case negated => exact fun n s hfits => exactly_of_fits hfits span
    case overflow => exact fun n s hfits => exactly_of_not_fits hfits span
    case same => exact fun n s => rfl
    case complement => exact fun b s => rfl
    case otherwise => exact fun op v h => applyPrefix_of_not_applies h span

/-- The sum and the quotient past the greatest integer, a division of a negative
integer, texts that differ behind a common part, and a text with an integer. -/
theorem operators_exact_corners :
    applyInfix .empty (.symbol .plus) (.int Text.maxInt default) (.int 1 default) default =
      Fault.overflow.valueAt default ∧
    applyInfix .empty (.symbol .slash) (.int Text.minInt default) (.int (-1) default) default =
      Fault.overflow.valueAt default ∧
    (∃ q m, -7 = q * 2 + m ∧ q = -3 ∧ m = -1 ∧
      applyInfix .empty (.symbol .intDiv) (.int (-7) default) (.int 2 default) default =
        .int q default ∧
      applyInfix .empty (.symbol .percent) (.int (-7) default) (.int 2 default) default =
        .int m default) ∧
    applyInfix .empty (.symbol .less) (.str "いろ" default) (.str "いろは" default) default =
      .bool true default ∧
    applyInfix .empty (.symbol .plus) (.str "い" default) (.int (-1) default) default =
      .str "い-1" default ∧
    applyPrefix (.symbol .minus) (.int Text.minInt default) default =
      Fault.overflow.valueAt default := by
  obtain ⟨hbetween, hbefore⟩ := operators_exact .empty default
  have hlarge : ¬ Text.Fits (Text.maxInt + 1) := fun h => absurd h.2 (by decide)
  refine ⟨hbetween.overflow _ _ _ _ _ _ rfl hlarge, ?_, ?_, ?_, ?_, hbefore.overflow _ _ hlarge⟩
  · exact ((hbetween.divides _ _ _ _).overflow _ (by decide)).2 ⟨by decide, hlarge⟩
  · obtain ⟨q, m, hsum, hless, hsign, -, -, -, hquotient, hrest⟩ :=
      (hbetween.divides (-7) 2 default default).exact (by decide) (by constructor <;> decide)
    have hm : m = -1 := by
      rcases hsign with rfl | hsign
      · omega
      · have hneg : m < 0 := Int.sign_eq_neg_one_iff_neg.1 hsign
        omega
    exact ⟨q, m, hsum, by omega, hm, hquotient, hrest⟩
  · have hless : Text.codePoints "いろ" < Text.codePoints "いろは" := by decide
    rw [(hbetween.lexical _ _ _ _).less]
    exact congrArg (Value.bool · default) (@decide_eq_true _ _ hless)
  · exact hbetween.joined (.str "い" default) (.int (-1) default) "い" "-1" rfl rfl (.inl rfl)

end Dncl
