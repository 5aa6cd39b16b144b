import OpGraph.Proofs.Promotion

/-!
Type variables. What an argument is cast against is told by the arguments and the formal inputs alone: it is what is known
of the first argument that shares its type variable and has a known type, wherever that argument stands.
-/

namespace OpGraph.Promotion

open List

/-- The formal input of an argument; the last one is that of all arguments that are left. -/
def formalAt (inputs : List Formal) (i : ℕ) : Option Formal :=
  inputs[i]?.or inputs.getLast?

/-- A variadic input that takes arguments of different types. -/
def IsMixed (f : Formal) : Prop :=
  f.option = .variadic ∧ f.homogeneous = false

/-- The formal inputs of two arguments have the same type variable, and neither takes arguments of different types. -/
def Shares (inputs : List Formal) (i j : ℕ) : Prop :=
  ∃ f g, formalAt inputs i = some f ∧ formalAt inputs j = some g ∧ isTypeVariable f.type ∧ g.type = f.type ∧
    ¬IsMixed f ∧ ¬IsMixed g

/-- There are more arguments than the formal inputs take. -/
def Exceeds (inputs : List Formal) (count : ℕ) : Prop :=
  inputs.length < count ∧ ∀ f ∈ inputs.getLast?, f.option ≠ .variadic

theorem typeVariable?_eq_some_iff {f : Formal} {v : String} :
    typeVariable? f = some v ↔ f.type = v ∧ isTypeVariable f.type ∧ ¬IsMixed f := by
  unfold typeVariable? IsMixed
  cases hvariadic : f.option == .variadic <;> cases hh : f.homogeneous <;> cases hv : isTypeVariable f.type <;>
    simp_all

theorem formals?_eq_none_iff {inputs : List Formal} {count : ℕ} :
    formals? inputs count = none ↔ Exceeds inputs count := by
  unfold formals? Exceeds
  split
  · rename_i hle
    exact iff_of_false (by simp) fun h => absurd h.1 (by omega)
  · rename_i hgt
    rw [and_iff_right (by omega)]
    cases inputs.getLast? with
    | none => simp
    | some f => simp

theorem getElem?_formals {inputs formals : List Formal} {count i : ℕ} (h : formals? inputs count = some formals)
    (hi : i < count) : formals[i]? = formalAt inputs i := by
  unfold formals? at h
  unfold formalAt
  split at h
  · cases h
    rw [getElem?_take_of_lt hi, getElem?_eq_getElem (by omega), Option.some_or]
  · split at h
    · rename_i f hlast
      split at h
      · cases h
        rw [getElem?_append, hlast]
        split
        · rw [getElem?_eq_getElem (by assumption), Option.some_or]
        · rw [getElem?_replicate_of_lt (by omega), getElem?_eq_none (by omega), Option.none_or]
      · cases h
    · cases h

section Binding

variable {α β τ : Type} {typeOf : α → Option τ}

theorem findSome?_eq_some_iff_getElem? {l : List α} {f : α → Option τ} {y : τ} :
    l.findSome? f = some y ↔ ∃ (j : ℕ) (a : α), l[j]? = some a ∧ f a = some y ∧ ∀ k < j, ∀ b, l[k]? = some b → f b = none := by
  rw [findSome?_eq_some_iff]
  constructor
  · rintro ⟨l₁, a, l₂, rfl, ha, hbefore⟩
    refine ⟨l₁.length, a, by simp, ha, fun k hk b hb => hbefore b ?_⟩
    rw [getElem?_append_left hk] at hb
    exact mem_of_getElem? hb
  · rintro ⟨j, a, hj, ha, hbefore⟩
    obtain ⟨hlt, rfl⟩ := List.getElem?_eq_some_iff.1 hj
    refine ⟨l.take j, l[j], l.drop (j + 1), ?_, ha, fun b hb => ?_⟩
    · rw [← drop_eq_getElem_cons hlt, take_append_drop]
    · obtain ⟨k, hk⟩ := mem_iff_getElem?.1 hb
      rw [getElem?_take] at hk
      split at hk
      · exact hbefore k (by assumption) b hk
      · cases hk

/-- What is known of an argument is that of the first one which shares its type variable and has a known type. -/
def IsKnown (typeOf : α → Option τ) (inputs : List Formal) (args : List α) (i : ℕ) (y : τ) : Prop :=
  ∃ (j : ℕ) (x : α), args[j]? = some x ∧ Shares inputs i j ∧ typeOf x = some y ∧
    ∀ k < j, ∀ z, args[k]? = some z → Shares inputs i k → typeOf z = none

variable {inputs formals : List Formal} {args : List α} (h : formals? inputs args.length = some formals) {i : ℕ}
  (hi : i < args.length) {w : Option String}
include h hi

theorem getElem?_variables :
    (formals.map typeVariable?)[i]? = some w ↔ ∃ f, formalAt inputs i = some f ∧ typeVariable? f = w := by
  rw [getElem?_map, getElem?_formals h hi, Option.map_eq_some_iff]

/-- **What an argument is paired with** is known of the first argument that shares its type variable. -/
theorem binding_eq_some_iff (hw : (formals.map typeVariable?)[i]? = some w) {y : τ} :
    w.bind (binding? typeOf (args.zip (formals.map typeVariable?))) = some y ↔ IsKnown typeOf inputs args i y := by
  obtain ⟨f, hf, rfl⟩ := (getElem?_variables h hi).1 hw
  have hshares : ∀ {j : ℕ} {x : α} {u : Option String}, (args.zip (formals.map typeVariable?))[j]? = some (x, u) →
      (Shares inputs i j ↔ ∃ v, typeVariable? f = some v ∧ u = some v) := by
    intro j x u hj
    obtain ⟨hx, hu⟩ := getElem?_zip_eq_some.1 hj
    obtain ⟨g, hg, rfl⟩ := (getElem?_variables h (List.getElem?_eq_some_iff.1 hx).1).1 hu
    simp only [Shares, hf, hg, typeVariable?_eq_some_iff, Option.some.injEq]
    constructor
    · rintro ⟨_, _, rfl, rfl, hv, heq, hf, hg⟩
      exact ⟨_, ⟨rfl, hv, hf⟩, heq, heq ▸ hv, hg⟩
    · rintro ⟨_, ⟨rfl, hv, hf⟩, heq, -, hg⟩
      exact ⟨_, _, rfl, rfl, hv, heq, hf, hg⟩
  have hplace : ∀ {j : ℕ} {x : α}, args[j]? = some x → ∃ u, (args.zip (formals.map typeVariable?))[j]? = some (x, u) := by
    intro j x hx
    have hj := (List.getElem?_eq_some_iff.1 hx).1
    rw [← length_formals h, ← length_map (f := typeVariable?)] at hj
    exact ⟨_, getElem?_zip_eq_some.2 ⟨hx, getElem?_eq_getElem hj⟩⟩
  rw [Option.bind_eq_some_iff]
  simp only [binding?, findSome?_eq_some_iff_getElem?]
  constructor
  · rintro ⟨v, hv, j, ⟨x, u⟩, hj, hy, hbefore⟩
    dsimp only at hy
    split at hy
    · refine ⟨j, x, (getElem?_zip_eq_some.1 hj).1, (hshares hj).2 ⟨v, hv, ‹_›⟩, hy, fun k hk z hz hsame => ?_⟩
      obtain ⟨u', hu'⟩ := hplace hz
      obtain ⟨v', hv', rfl⟩ := (hshares hu').1 hsame
      obtain rfl := Option.some.inj (hv.symm.trans hv')
      simpa using hbefore k hk _ hu'
    · cases hy
  · rintro ⟨j, x, hx, hsame, hy, hbefore⟩
    obtain ⟨u, hu⟩ := hplace hx
    obtain ⟨v, hv, rfl⟩ := (hshares hu).1 hsame
    refine ⟨v, hv, j, _, hu, by simpa using hy, fun k hk b hb => ?_⟩
    split
    · exact hbefore k hk b.1 (getElem?_zip_eq_some.1 hb).1 ((hshares hb).2 ⟨v, hv, ‹_›⟩)
    · rfl

omit h hi

/-- **Type variables are bound by the first argument that tells a type.** A call with too many arguments is refused, and
nothing is cast. In any other call the arguments are cast in order, each against what is known of the first argument, before
it, after it or itself, that shares its type variable and has a known type; and against nothing if there is none. -/
theorem castInputs_binds_first {m : Type → Type} [Monad m] [MonadExceptOf Error m] (typeOf : α → Option τ)
    (cast : α × Option τ → m β) (inputs : List Formal) (args : List α) :
    (Exceeds inputs args.length ∧ ∃ e : Error, e.code = some .arityError ∧
      e.fault = .call (.tooManyActuals args.length inputs.length) ∧ castInputs typeOf cast (some inputs) args = throw e) ∨
    (¬Exceeds inputs args.length ∧ ∃ known : List (Option τ), known.length = args.length ∧
      (∀ i < args.length, ∀ y, known[i]? = some (some y) ↔ IsKnown typeOf inputs args i y) ∧
      castInputs typeOf cast (some inputs) args = (args.zip known).mapM cast) := by
  cases hformals : formals? inputs args.length with
  | none =>
    refine .inl ⟨formals?_eq_none_iff.1 hformals, ⟨.call (.tooManyActuals args.length inputs.length), none⟩, rfl, rfl, ?_⟩
    simp only [castInputs, assign, hformals]
  | some formals =>
    obtain ⟨vs, hvs⟩ : ∃ vs, formals.map typeVariable? = vs := ⟨_, rfl⟩
    have hlength : vs.length = args.length := by
      rw [← hvs, List.length_map, length_formals hformals]
    refine .inr ⟨fun h => ?_, vs.map fun v => v.bind (binding? typeOf (args.zip vs)),
      by rw [List.length_map, hlength], fun i hi y => ?_, ?_⟩
    · rw [formals?_eq_none_iff.2 h] at hformals
      cases hformals
    · have hw := List.getElem?_eq_getElem (hlength ▸ hi)
      rw [List.getElem?_map, hw, Option.map_some, Option.some.injEq]
      subst hvs
      exact binding_eq_some_iff hformals hi hw
    · simp only [castInputs, assign, hformals, hvs]
      rw [List.zip_map_right]
      rfl

end Binding

end OpGraph.Promotion
