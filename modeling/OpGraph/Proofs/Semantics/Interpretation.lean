import Mathlib
import OpGraph.Graph.Interchange

/-!
Interpretations of operators over a domain of values, and the outcomes of evaluations. Scripts and graphs are evaluated
over any interpretation in which the few operators that a lowering adds of its own accord mean what they should. An
evaluation may end without a result, and says why; two evaluations match if they end in the same way.
-/

namespace OpGraph

open List

variable {x : String}
variable {xs : List String} {y : String}

/-! ### Outcomes -/

/-- Why an evaluation has no result: a loop needs more rounds, an operator does not give the outputs that it is asked
for, or a name has no value or a form no meaning. -/
inductive Halt where
  | fuel
  | undefined
  | stuck
  deriving DecidableEq, Repr

/-- What an evaluation comes to. -/
abbrev Outcome (α : Type) := Except Halt α

namespace Outcome

variable {α β γ δ : Type}

/-- The outcomes are of one kind: related results, or the same reason for having none, and neither is stuck. -/
def Matches (Q : α → β → Prop) : Outcome α → Outcome β → Prop
  | .ok a, .ok b => Q a b
  | .error h, .error k => h = k ∧ h ≠ .stuck
  | _, _ => False

variable {Q Q' : α → β → Prop} {g : Outcome α} {r : Outcome β}

theorem Matches.mono (h : Matches Q g r) (hQ : ∀ a b, Q a b → Q' a b) : Matches Q' g r := by
  cases g <;> cases r
  · exact h
  · exact h
  · exact h
  · exact hQ _ _ h

/-- **Outcomes in a row match** if the first do, and what follows related results does. -/
theorem Matches.bind {S : γ → δ → Prop} {f : α → Outcome γ} {k : β → Outcome δ} (h : Matches Q g r)
    (hf : ∀ a b, Q a b → Matches S (f a) (k b)) : Matches S (g >>= f) (r >>= k) := by
  cases g <;> cases r
  · exact h
  · exact h.elim
  · exact h.elim
  · exact hf _ _ h

theorem Matches.map {S : α → γ → Prop} {f : β → γ} (h : Matches Q g r) (hf : ∀ a b, Q a b → S a (f b)) :
    Matches S g (f <$> r) := by
  cases g <;> cases r
  · exact h
  · exact h.elim
  · exact h.elim
  · exact hf _ _ h

theorem Matches.result (h : Matches Q g r) : Matches (fun a b => Q a b ∧ r = .ok b) g r := by
  cases g <;> cases r
  · exact h
  · exact h
  · exact h
  · exact ⟨h, rfl⟩

theorem Matches.andThen {S : γ → β → Prop} {f : α → Outcome γ} (h : Matches Q g r)
    (hf : ∀ a b, Q a b → ∃ a', f a = .ok a' ∧ S a' b) : Matches S (g >>= f) r := by
  cases g <;> cases r
  · exact h
  · exact h.elim
  · exact h.elim
  · rename_i a b
    obtain ⟨a', ha', hs⟩ := hf a b h
    change Matches S (f a) _
    rw [ha']
    exact hs

theorem matches_error {h : Halt} (hs : h ≠ .stuck) : Matches Q (.error h) (.error h) :=
  ⟨rfl, hs⟩

theorem Matches.eq {g r : Outcome α} (h : Matches Eq g r) : g = r ∧ g ≠ .error .stuck := by
  cases g <;> cases r
  · obtain ⟨rfl, hs⟩ := h
    exact ⟨rfl, fun he => hs (Except.error.inj he)⟩
  · exact h.elim
  · exact h.elim
  · obtain rfl : _ = _ := h
    exact ⟨rfl, by simp⟩

theorem mapM_eq_ok {f : α → Outcome β} {xs : List α} {ys : List β} :
    xs.mapM f = .ok ys ↔ Forall₂ (fun x y => f x = .ok y) xs ys := by
  induction xs generalizing ys with
  | nil =>
    rw [mapM_nil, forall₂_nil_left_iff]
    exact ⟨fun h => (Except.ok.inj h).symm, fun h => h ▸ rfl⟩
  | cons x xs ih =>
    rw [mapM_cons, forall₂_cons_left_iff]
    constructor
    · intro h
      obtain ⟨y, hy, h⟩ := bind_eq_ok.1 h
      obtain ⟨zs, hzs, h⟩ := bind_eq_ok.1 h
      exact ⟨y, zs, hy, ih.1 hzs, (Except.ok.inj h).symm⟩
    · rintro ⟨y, zs, hy, hzs, rfl⟩
      exact bind_eq_ok.2 ⟨y, hy, bind_eq_ok.2 ⟨zs, ih.2 hzs, rfl⟩⟩

theorem mapM_congr {f : α → Outcome γ} {k : β → Outcome γ} {xs : List α} {ys : List β}
    (h : Forall₂ (fun x y => f x = k y) xs ys) : xs.mapM f = ys.mapM k := by
  induction h with
  | nil => rfl
  | cons hx _ ih => rw [mapM_cons, mapM_cons, hx, ih]

def ofOption (h : Halt) : Option α → Outcome α
  | some a => .ok a
  | none => .error h

end Outcome

/-! ### Values of names -/

/-- Values of names: of the variables of a script, or of the values of a graph. -/
abbrev Values (V : Type) := String → Option V

namespace Values

variable {V : Type}

def set (ρ : Values V) (x : String) (v : V) : Values V :=
  fun y => if y = x then some v else ρ y

/-- Gives each name a value, if there are as many of them. -/
def setAll (ρ : Values V) : List String → List V → Outcome (Values V)
  | [], [] => .ok ρ
  | x :: xs, v :: vs => (ρ.set x v).setAll xs vs
  | _, _ => .error .undefined

def get (ρ : Values V) (x : String) : Outcome V :=
  .ofOption .stuck (ρ x)

/-- The value of an input of a node: an empty name stands for an omitted one. -/
def input (ρ : Values V) (x : String) : Outcome (Option V) :=
  if x = "" then .ok none else some <$> ρ.get x

@[simp] theorem set_self (ρ : Values V) (x : String) (v : V) : ρ.set x v x = some v :=
  if_pos rfl

theorem set_of_ne {ρ : Values V} {v : V} (h : y ≠ x) : ρ.set x v y = ρ y :=
  if_neg h

theorem get_of_eq {ρ : Values V} {v : V} (h : ρ x = some v) : ρ.get x = .ok v := by
  rw [get, h]
  rfl

theorem input_of_eq {ρ : Values V} {v : V} (hx : x ≠ "") (h : ρ x = some v) : ρ.input x = .ok (some v) := by
  rw [input, if_neg hx, get_of_eq h]
  rfl

theorem input_congr {ρ ρ' : Values V} (hx : x ≠ "") (hy : y ≠ "") (h : ρ x = ρ' y) : ρ.input x = ρ'.input y := by
  rw [input, input, if_neg hx, if_neg hy, get, get, h]

theorem input_of_kept {ρ ρ' : Values V} (h : x ≠ "" → ρ' x = ρ x) : ρ'.input x = ρ.input x := by
  by_cases hx : x = ""
  · rw [hx]
    rfl
  · exact input_congr hx hx (h hx)

@[simp] theorem setAll_cons (ρ : Values V) (x : String) (xs : List String) (v : V) (vs : List V) :
    ρ.setAll (x :: xs) (v :: vs) = (ρ.set x v).setAll xs vs :=
  rfl

theorem setAll_other {vs : List V} {ρ ρ' : Values V} (h : ρ.setAll xs vs = .ok ρ') (hy : y ∉ xs) : ρ' y = ρ y := by
  induction xs generalizing vs ρ ρ' y with
  | nil =>
    cases vs with
    | nil => rw [Except.ok.inj h]
    | cons v vs => cases h
  | cons x xs ih =>
    cases vs with
    | nil => cases h
    | cons v vs =>
      have hrest := ih h fun hm => hy (mem_cons_of_mem _ hm)
      rw [hrest, set_of_ne fun he => hy (by simp [he])]

theorem setAll_values {vs : List V} {ρ ρ' : Values V} (h : ρ.setAll xs vs = .ok ρ') (hnodup : xs.Nodup) :
    Forall₂ (fun x v => ρ' x = some v) xs vs := by
  induction xs generalizing vs ρ ρ' with
  | nil =>
    cases vs with
    | nil => exact .nil
    | cons v vs => cases h
  | cons x xs ih =>
    obtain ⟨hx, hnodup⟩ := nodup_cons.1 hnodup
    cases vs with
    | nil => cases h
    | cons v vs =>
      rw [setAll_cons] at h
      exact .cons (by rw [setAll_other h hx, set_self]) (ih h hnodup)

theorem setAll_isSome : ∀ {xs : List String} {vs : List V} {ρ ρ' : Values V} {y : String},
    ρ.setAll xs vs = .ok ρ' → y ∈ xs → (ρ' y).isSome := by
  intro xs
  induction xs with
  | nil => exact fun _ hy => absurd hy not_mem_nil
  | cons x xs ih =>
    intro vs ρ ρ' y h hy
    cases vs with
    | nil => cases h
    | cons v vs =>
      rw [setAll_cons] at h
      by_cases hm : y ∈ xs
      · exact ih h hm
      · obtain rfl := (mem_cons.1 hy).resolve_right hm
        rw [setAll_other h hm, set_self]
        rfl

theorem setAll_eq (ρ : Values V) : ∀ (xs : List String) (vs : List V),
    (xs.length = vs.length ∧ ∃ ρ', ρ.setAll xs vs = .ok ρ') ∨
      xs.length ≠ vs.length ∧ ρ.setAll xs vs = .error .undefined := by
  intro xs
  induction xs generalizing ρ with
  | nil =>
    intro vs
    cases vs with
    | nil => exact .inl ⟨rfl, ρ, rfl⟩
    | cons v vs => exact .inr ⟨by simp, rfl⟩
  | cons x xs ih =>
    intro vs
    cases vs with
    | nil => exact .inr ⟨by simp, rfl⟩
    | cons v vs =>
      refine (ih (ρ.set x v) vs).imp (fun h => ⟨by simp [h.1], h.2⟩) fun h => ⟨by simpa using h.1, h.2⟩

end Values

/-! ### Operators -/

/-- A meaning for operators over values of type `V`. The operators of the home domain that a lowering adds to a graph
mean what their names say; all others mean anything. -/
structure Interpretation (V : Type) where
  /-- Domain of the operators that expressions stand for. -/
  home : String
  /-- That many outputs of an operator of a domain, from its attributes and inputs. -/
  apply : (domain operator : String) → List Interchange.Attribute → List (Option V) → (count : ℕ) → Option (List V)
  literal : Literal → V
  truth : V → Bool
  /-- How often a loop over the range of a value is run. -/
  count : V → ℕ
  index : ℕ → V
  identity : ∀ v, apply home "Identity" [] [some v] 1 = some [v]
  castLike : ∀ v w, apply home "CastLike" [] [some v, some w] 1 = some [v]
  constant : ∀ name l t, Interchange.Tensor.ofLiteral name l = .ok t →
    apply home "Constant" [⟨"value", .tensor, .tensor t⟩] [] 1 = some [literal l]
  negation : ∀ v, ∃ w, apply home "Not" [] [some v] 1 = some [w] ∧ truth w = !truth v
  conjunction : ∀ v w, ∃ u, apply home "And" [] [some v, some w] 1 = some [u] ∧ truth u = (truth v && truth w)
  truth_true : truth (literal (.bool true)) = true

namespace Interpretation

variable {V : Type} (I : Interpretation V)

def outputs (domain operator : String) (attributes : List Interchange.Attribute) (inputs : List (Option V))
    (count : ℕ) : Outcome (List V) :=
  .ofOption .undefined (I.apply domain operator attributes inputs count)

def single : List V → Outcome V
  | [v] => .ok v
  | _ => .error .undefined

end Interpretation

end OpGraph
