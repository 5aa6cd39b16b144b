import OpGraph.Proofs.Lowering.Expressions

/-!
Where the value of an expression comes from. It is a new one, which a node of the innermost function writes, or the
expression is a name that is bound to it.
-/

namespace OpGraph.Lowering

open List

variable {N : Prop} {env : Env} {s s' : State} {pos : Position}
variable {e : Expr} {candidate : Option String} {base result x : String}

/-! ### New values -/

/-- A visible value whose name was free before is one that a node of the innermost function writes. -/
theorem assigned_of_new (c : Computes N s {} s' {}) (hg : s.Good) (hv : x ∈ s'.scopes.visible) (hx : x ∉ s.names.used) :
    x ∈ s'.current.assigned := by
  rw [State.visible_eq (c.opened hg.opened), c.around] at hv
  rcases mem_append.1 hv with hv | hv
  · refine (mem_append.1 hv).resolve_left fun hin => hx ?_
    unfold GraphFunction.inputNames GraphFunction.inputs at hin
    rw [c.params] at hin
    exact hg.taken.1 x (State.visible_of_current hg.opened (mem_append_left _ hin))
  · refine absurd (hg.taken.1 x ?_) hx
    rw [State.visible_eq hg.opened]
    exact mem_append_right _ hv

/-! ### Subscripts -/

namespace Subscript

theorem name_of_gather {ps : List Point} {value : String} (hr : Returns (gather base result value ps) env s x s') :
    x = if ps.isEmpty then value else result := by
  induction ps generalizing value x s with
  | nil =>
    rw [gather] at hr
    exact (returns_pure.1 hr).1.symm
  | cons p ps ih =>
    simp only [gather, returns_ite_bind, returns_bind] at hr
    obtain ⟨index, s₁, hi, name, s₂, hname, u, s₃, he, hr⟩ := hr
    rw [ih hr]
    split at hname
    · rename_i hps
      rw [if_pos hps, ← (returns_pure.1 hname).1]
      rfl
    · rename_i hps
      rw [if_neg hps]
      rfl

theorem name_of_slice {ks : List Range} {constants : List (ℕ × Int)}
    (hr : Returns (slice pos base result ks constants false) env s x s') : x = result := by
  simp only [slice, returns_bind] at hr
  obtain ⟨bs, s₁, hbs, inputs, s₂, hin, hr⟩ := hr
  split at hr
  all_goals
    simp only [Bool.false_eq_true, if_false, pure_bind, returns_bind, returns_pure] at hr
  · obtain ⟨u, s₃, he, rfl, rfl⟩ := hr
    rfl
  · obtain ⟨sliced, s₃, hf, u, s₄, he, axes, s₅, hax, w, s₆, he', rfl, rfl⟩ := hr
    rfl

end Subscript

open Subscript in
theorem new_of_subscript {value : Lower Operand} {is : List Index} {candidate : Option String} {x : Operand}
    (hvalue : Yields N value) (hg : s.Good) (hr : Returns (subscript pos value is candidate) env s x s') :
    x.name ∉ s.names.used := by
  simp only [subscript, returns_bind] at hr
  obtain ⟨base, s₁, hb, result, s₂, hf, ⟨ks, ps⟩, s₃, hcl, hr⟩ := hr
  have hnew : result ∉ s.names.used := by
    obtain ⟨-, hfree, -⟩ := computes_fresh (N := False) hf (fun h => h.elim) {}
    exact fun h => hfree ((hvalue hg hb).1.used result h)
  dsimp only at hr
  split at hr
  · obtain ⟨u, s₄, he, ⟨⟩⟩ := returns_bind.1 hr
    exact hnew
  · rename_i hsome
    split at hr
    · simp only [returns_bind, returns_pure] at hr
      obtain ⟨sliced, s₄, hsl, last, s₅, hga, rfl, rfl⟩ := hr
      rw [name_of_gather hga]
      split
      · rename_i hempty
        rw [hempty] at hsl
        rw [name_of_slice hsl]
        exact hnew
      · exact hnew
    · rename_i hranges
      obtain ⟨last, s₄, hga, ⟨⟩⟩ := returns_bind.1 hr
      have hne : ps.isEmpty = false := by grind
      rw [name_of_gather hga, hne]
      exact hnew

/-! ### Expressions -/

/-- An expression that becomes a value, and no request, is a constant, a name or a subscript. -/
theorem operand_of_lowerExpr {x : Operand} (hr : Returns (lowerExpr e candidate) env s (.operand x) s') :
    (∃ v, Returns (constant v candidate e.pos) env s x s') ∨
      (∃ pos id, e = .name pos id ∧ Returns (operandOfName id pos) env s x s') ∨
      ∃ pos value is, Returns (subscript pos (lowerExpr value none >>= finish none) is candidate) env s x s' := by
  rw [lowerExpr.eq_def] at hr
  split at hr
  · simp only [returns_bind, returns_evalLiteral, returns_pure, Lowered.operand.injEq] at hr
    obtain ⟨v, t, ⟨-, rfl⟩, y, s₁, hx, rfl, rfl⟩ := hr
    exact .inl ⟨v, hx⟩
  · cases e with
    | call pos func args keywords => simp at hr
    | binary pos l op r | unary pos op e =>
      dsimp only at hr
      split at hr
      · cases hr
      · simp [returns_bind] at hr
    | boolean pos op es =>
      simp only [returns_bind] at hr
      obtain ⟨o, t, -, hr⟩ := hr
      split at hr
      · simp [returns_bind] at hr
      · cases hr
    | compare pos l ops es =>
      dsimp only at hr
      split at hr
      · split at hr
        · cases hr
        · simp [returns_bind] at hr
      · cases hr
    | name pos id =>
      obtain ⟨y, s₁, hx, ⟨⟩⟩ := returns_bind.1 hr
      exact .inr (.inl ⟨pos, id, rfl, hx⟩)
    | subscript pos value i =>
      dsimp only at hr
      split at hr
      all_goals
        obtain ⟨y, s₁, hx, hr⟩ := returns_bind.1 hr
        obtain ⟨hy, rfl⟩ := returns_pure.1 hr
        obtain rfl := Lowered.operand.inj hy
        exact .inr (.inr ⟨pos, value, _, hx⟩)
    | constant | attr | slice | tuple | list => cases hr

/-- A name stands for a value of the graph. -/
def State.Denotes (s : State) (x v : String) : Prop :=
  ∃ p t, s.scopes.lookup x = some (.graph v p t)

instance (s : State) (x v : String) : Decidable (s.Denotes x v) :=
  match h : s.scopes.lookup x with
  | some (.graph w p t) =>
    if hw : w = v then isTrue ⟨p, t, by rw [h, hw]⟩ else isFalse fun ⟨_, _, hd⟩ => by simp_all
  | some (.attr ..) | some (.function ..) | some (.value _) | none => isFalse fun ⟨_, _, hd⟩ => by simp_all

/-- An expression that is a name of a graph value. -/
def State.Names (s : State) (e : Expr) (x : String) : Prop :=
  ∃ pos id, e = .name pos id ∧ s.Denotes id x

/-- **The value of an expression is new, or the expression is a name bound to it.** -/
theorem new_or_named {x : Operand} (hg : s.Good) (hr : Returns (lowerOperand e candidate) env s x s') :
    x.name ∉ s.names.used ∨ s.Names e x.name := by
  simp only [lowerOperand, returns_bind] at hr
  obtain ⟨l, s₁, hl, hr⟩ := hr
  cases l with
  | operand y =>
    cases hr
    rcases operand_of_lowerExpr hl with ⟨v, hc⟩ | ⟨pos, id, rfl, hn⟩ | ⟨pos, value, is, hs⟩
    · exact .inl (computes_constant (N := False) hc fun h => h.elim).2.free
    · simp only [operandOfName, returns_bind, returns_lookup] at hn
      obtain ⟨b, t, ⟨hb, rfl⟩, hn⟩ := hn
      rcases (computes_operandOf (N := False) hn hg fun h => h.elim).2 with ⟨p, ty, rfl, -⟩ | f
      · rcases Option.or_eq_some_iff.1 hb with hb | ⟨-, hb⟩
        · exact .inr ⟨pos, id, rfl, p, ty, hb⟩
        · simp at hb
      · exact .inl f.free
    · exact .inl (new_of_subscript (yields_part (lowers_lowerExpr (N := False) value (fun h => h.elim)
        fun h => h.elim)) hg hs)
  | request r =>
    obtain ⟨c, -⟩ := lowers_lowerExpr (N := False) e (fun h => h.elim) (fun h => h.elim) hg hl
    simp only [finish, returns_bind, returns_pure] at hr
    obtain ⟨name, s₂, hf, u, s₃, he, rfl, rfl⟩ := hr
    obtain ⟨-, hfree, -⟩ := computes_fresh (N := False) hf (fun h => h.elim) {}
    exact .inl fun h => hfree (c.used name h)

end OpGraph.Lowering
