/-
Dncl/Proofs/Entries.lean

Errors in a session of several entries.

The entries of a session are run one after the other, each in the store that
the entries before it have left.  Functions live on in the store, so an entry
may run code of an earlier one, and an error that ends it may have been found
there.  Then its span is one of the earlier entry, and means nothing in the
text of the entry that was run.

Design.  `Machine.PointsInto` is used with two sets of places: those of all
entries so far, which bounds the functions of the store from entry to entry,
and those of one entry with the functions that it finds.
-/
import Dncl.Grammar
import Dncl.Proofs.Blame
import Dncl.Proofs.Deciding
import Dncl.Report.Excerpt

namespace Dncl

/-- The sessions that entries leave behind, with the entries, the latest first.
An entry may have ended with an error, and between entries the console may be
used for other things. -/
inductive Session.Entered (settings : Settings) : List Program → Session Console → Prop
  | new (world : Console) : Entered settings [] (Session.new world)
  | after {earlier : List Program} {s : Session Console} (p : Program) (n : Nat)
      (world : Console) : Entered settings earlier s →
      Entered settings (p :: earlier)
        { (s.run Console.host settings n p).2 with world := world }

namespace Session.Entered

variable {settings : Settings} {earlier : List Program} {s : Session Console}

theorem signalFree (h : s.Entered settings earlier) : s.store.SignalFree := by
  induction h with
  | new world => exact fun v hv => absurd hv (Session.not_stored_new world v)
  | after p n world _ ih => exact (Machine.run_sound (Machine.load_sound ih p) n).obeyed.stored

/-- The functions of the store are made of code of the entries. -/
theorem places_closure (h : s.Entered settings earlier) (ref : ClosureRef) :
    (s.store.closure ref).literal.places ⊆ earlier.flatMap Program.places := by
  induction h generalizing ref with
  | new world => exact List.nil_subset _
  | @after earlier s p n world hs ih =>
    have hclosures : ∀ ref, (s.store.closure ref).literal.places ⊆
        (p :: earlier).flatMap Program.places :=
      fun ref => List.Subset.trans (ih ref) (List.subset_append_right _ _)
    have hload := Machine.PointsInto.load hclosures (List.subset_append_left p.places _)
    exact (hload.run (Machine.load_sound hs.signalFree p) n).closures ref

end Session.Entered

/-- The places in the functions of a store. -/
def Store.functionPlaces (st : Store) : List Span :=
  st.closures.toList.flatMap fun c => c.literal.places

theorem Store.mem_functionPlaces {st : Store} {place : Span} :
    place ∈ st.functionPlaces ↔
      ∃ ref, ref.index < st.closures.size ∧ place ∈ (st.closure ref).literal.places := by
  simp only [functionPlaces, List.mem_flatMap]
  constructor
  · rintro ⟨c, hc, hplace⟩
    obtain ⟨i, hi, rfl⟩ := List.getElem_of_mem hc
    refine ⟨⟨i⟩, by simpa using hi, ?_⟩
    rw [Store.closure, Array.getD_eq_getD_getElem?, Array.getElem?_eq_getElem (by simpa using hi)]
    exact hplace
  · rintro ⟨⟨i⟩, hi, hplace⟩
    rw [Store.closure, Array.getD_eq_getD_getElem?, Array.getElem?_eq_getElem hi] at hplace
    exact ⟨_, Array.mem_toList_iff.2 (Array.getElem_mem hi), hplace⟩

theorem Store.places_closure_subset (st : Store) (ref : ClosureRef) :
    (st.closure ref).literal.places ⊆ st.functionPlaces := by
  intro place hplace
  by_cases href : ref.index < st.closures.size
  · exact Store.mem_functionPlaces.2 ⟨ref, href, hplace⟩
  · rw [Store.closure, Array.getD_eq_getD_getElem?,
      Array.getElem?_eq_none (Nat.le_of_not_lt href)] at hplace
    exact absurd hplace List.not_mem_nil

/-- **Errors of an entry point into the entries.**  An error or a type error that
ends an entry has the span of a node of that entry, or of a node in a function
that was there when the entry began; and then it is one of an earlier entry.  So
an entry that finds no function is blamed itself. -/
theorem entry_errors_point_into_entries (settings : Settings) (earlier : List Program)
    (s : Session Console) (hs : s.Entered settings earlier) (p : Program) (n : Nat) (v : Value)
    (h : (s.run Console.host settings n p).1 = some (.ok v)) (herror : v.isError = true) :
    v.span ∈ p.places ∨
      ∃ ref, ref.index < s.store.closures.size ∧
        v.span ∈ (s.store.closure ref).literal.places ∧ ∃ q ∈ earlier, v.span ∈ q.places := by
  have hsound := Machine.load_sound hs.signalFree p
  have hclosures : ∀ ref, (s.store.closure ref).literal.places ⊆
      p.places ++ s.store.functionPlaces :=
    fun ref => List.Subset.trans (s.store.places_closure_subset ref) (List.subset_append_right _ _)
  have hload := Machine.PointsInto.load hclosures (List.subset_append_left p.places _)
  have hspan := (hload.run hsound n).span_outcome (Machine.run_sound hsound n) h herror
  rcases List.mem_append.1 hspan with hown | hfunction
  · exact .inl hown
  · obtain ⟨ref, href, hplace⟩ := Store.mem_functionPlaces.1 hfunction
    exact .inr ⟨ref, href, hplace, List.mem_flatMap.1 (hs.places_closure ref hplace)⟩

/-- An entry that defines a function which asks for a name. -/
def definesAsking : Program :=
  ⟨[.define ⟨"f", ⟨7, 8⟩⟩ ⟨[], ⟨[.expr (.ident ⟨"a", ⟨16, 17⟩⟩)], ⟨14, 17⟩⟩, ⟨0, 33⟩⟩ ⟨0, 33⟩],
    ⟨0, 33⟩⟩

/-- An entry that calls the function. -/
def callsAsking : Program :=
  ⟨[.expr (.call (.ident ⟨"f", ⟨0, 1⟩⟩) [] ⟨0, 3⟩)], ⟨0, 3⟩⟩

/-- The session in which the function is defined, and the name is not. -/
def askingDefined : Session Console :=
  { ((Session.new {}).run Console.host {} 5 definesAsking).2 with world := {} }

/-- The error of the second entry lies in the function of the first, behind the
end of the text that was entered, and is shown at its beginning. -/
theorem entry_errors_point_into_entries_earlier :
    parseProgram "関数 f() を: a と定義する" = .ok definesAsking ∧
    parseProgram "f()" = .ok callsAsking ∧
    askingDefined.Entered {} [definesAsking] ∧
    ∃ v, (askingDefined.run Console.host {} 20 callsAsking).1 = some (.ok v) ∧
      v.isError = true ∧ v.span ∉ callsAsking.places ∧ v.span ∈ definesAsking.places ∧
      explain? "f()".toList v =
        some "line: 0, column: 0\n`a` は定義されていません\nf()\n^" := by
  have hs : askingDefined.Entered {} [definesAsking] := .after _ _ _ (.new {})
  have hrun : (askingDefined.run Console.host {} 20 callsAsking).1 =
      some (.ok (.error "`a` は定義されていません" ⟨16, 17⟩)) := rfl
  have hown : (⟨16, 17⟩ : Span) ∉ callsAsking.places := by decide
  refine ⟨by decide +kernel, by decide +kernel, hs, _, hrun, rfl, hown, ?_, by decide +kernel⟩
  rcases entry_errors_point_into_entries {} _ _ hs callsAsking 20 _ hrun rfl with
    h | ⟨_, _, _, q, hq, hplace⟩
  · exact absurd h hown
  · rwa [List.mem_singleton.1 hq] at hplace

end Dncl
