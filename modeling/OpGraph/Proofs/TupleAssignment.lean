import OpGraph.Proofs.LoopNames

/-!
Tuple assignments. The items are lowered and bound one after the other, so that an item which looks up no target of the
items before it has the value that it has in the bindings from before the statement. An item that looks up such a target
has its value in the new bindings.
-/

namespace OpGraph.Lowering

open List

variable {A : String → Binding → Prop} {env : Env}

namespace State

variable {s t : State}

/-- What is looked up to lower an expression in a state: the names in it, and what the nested functions among them have
captured. -/
def consulted (s : State) (e : Expr) : Reading where
  named := (· ∈ e.mentions)
  captured y := ∃ x ∈ e.mentions, ∃ id fn captured, s.scopes.lookup x = some (.function id fn captured) ∧
    y ∈ captured.map Prod.fst

/-- An expression is apart from names if none of them is looked up to lower it. -/
def Apart (s : State) (e : Expr) (names : List String) : Prop :=
  ∀ y ∈ names, ¬(s.consulted e).named y ∧ ¬(s.consulted e).captured y

theorem Rebinding.frames_rebound (h : s.Rebinding A t) : (t.rebound s.bindings).frames = s.frames := by
  have hfunction := h.function
  have hparams := h.params
  have haround := h.around
  unfold rebound State.bindings
  unfold frames at *
  cases hs : s.scopes with
  | nil =>
    cases ht : t.scopes with
    | nil => rfl
    | cons g gs => simp [hs, ht] at hfunction
  | cons f fs =>
    cases ht : t.scopes with
    | nil => simp [hs, ht] at hfunction
    | cons g gs => simp_all

theorem Rebinding.closed {names : List String} {e : Expr} (h : s.Rebinding (fun x _ => x ∈ names) t) (hapart : s.Apart e names) :
    t.Closed (s.consulted e) := by
  intro x id fn captured hx hlookup p hp
  have hold := h.lookup fun _ hmem => (hapart x hmem).1 hx
  exact ⟨x, hx, id, fn, captured, hold ▸ hlookup, mem_map_of_mem hp⟩

theorem Rebinding.agrees {names : List String} {e : Expr} (h : s.Rebinding (fun x _ => x ∈ names) t) (hapart : s.Apart e names) :
    t.Agrees (s.consulted e) s.bindings := by
  intro x hx
  refine (h.get?_eq fun _ hmem => ?_).symm
  exact hx.elim (hapart x hmem).1 (hapart x hmem).2

end State

open State

def assignItems (items : List (Expr × Expr)) : Lower Unit :=
  items.forM fun (t, v) => assign t v none

theorem acts_assignItems (items : List (Expr × Expr)) :
    Acts (Rebinding fun x _ => x ∈ Expr.targetsAll (items.map Prod.fst)) .any env (assignItems items) := by
  refine .forM fun item hitem => acts_assign (K := .any) (fun _ hx _ _ _ => ?_) item.2 none
  exact targets_subset (mem_map_of_mem hitem) hx

theorem assignItems_append (before after : List (Expr × Expr)) :
    assignItems (before ++ after) = (do assignItems before; assignItems after) :=
  forM_append ..

theorem assignItems_cons (t v : Expr) (items : List (Expr × Expr)) :
    assignItems ((t, v) :: items) = (do assign t v none; assignItems items) :=
  forM_cons ..

theorem returns_tupleAssignment {place : Place} {m : Mark NameSet} {p q : Position} {targets values : List Expr}
    {s s' : State} (h : Returns (lowerStmt place (.assign m [.tuple p targets] (.tuple q values))) env s () s') :
    targets.length = values.length ∧ Returns (assignItems (targets.zip values)) env s () s' := by
  rw [lowerStmt.eq_def] at h
  dsimp only [assignAny] at h
  split at h
  · cases h
  · exact ⟨not_not.1 ‹_›, h⟩

/-- **What a target of a tuple assignment is bound to.** It is bound to the value that its item has after the items
before it have been assigned. If the item is apart from their targets, this is the value that it has in the bindings from
before the statement. -/
theorem tuple_target_value {place : Place} {m : Mark NameSet} {p q pt : Position} {targets values : List Expr}
    {before after : List (Expr × Expr)} {id : String} {e : Expr} {s s' : State}
    (h : Returns (lowerStmt place (.assign m [.tuple p targets] (.tuple q values))) env s () s')
    (hitem : targets.zip values = before ++ (.name pt id, e) :: after)
    (hlast : id ∉ Expr.targetsAll (after.map Prod.fst)) :
    targets.length = values.length ∧ ∃ x r r', Returns (assignItems before) env s () r ∧
      Returns (lowerOperand e (some id)) env r x r' ∧
      s'.scopes.lookup id = some (.graph x.name (if x.isConst then .constant else .intermediate) none) ∧
      (s.Apart e (Expr.targetsAll (before.map Prod.fst)) → (r.rebound s.bindings).frames = s.frames ∧
        Returns (lowerOperand e (some id)) env (r.rebound s.bindings) x (r'.rebound s.bindings)) := by
  obtain ⟨hlength, hitems⟩ := returns_tupleAssignment h
  rw [hitem, assignItems_append, assignItems_cons] at hitems
  simp only [assign, returns_bind] at hitems
  obtain ⟨⟨⟩, r, hbefore, ⟨⟩, r₁, ⟨x, r', hx, hbind⟩, hafter⟩ := hitems
  refine ⟨hlength, x, r, r', hbefore, hx, ?_, fun hapart => ?_⟩
  · rw [((acts_assignItems after).also hafter).lookup fun _ => hlast, lookup_bind hbind, if_pos rfl]
  · have hmoved := (acts_assignItems before).also hbefore
    exact ⟨hmoved.frames_rebound, (reads_lowerOperand _ fun _ hy => hy).returns_rebound (hmoved.closed hapart)
      (hmoved.agrees hapart) hx⟩

/-- `op.Neg(x)` -/
def sampleItem : Expr :=
  .call default (.attr default (.name default "op") "Neg") [.name default "x"] []

/-- `n, x, i = i, op.Neg(x), n` -/
def sampleTuple : Stmt NameSet :=
  .assign ⟨default, .ofList []⟩ [.tuple default (["n", "x", "i"].map (.name default))]
    (.tuple default [.name default "i", sampleItem, .name default "n"])

/-- `x` is bound to the value of its item in the old bindings, since neither `op` nor `x` is the target of an item
before. -/
theorem tuple_target_value_sample : ∃ s' x r r', Returns (lowerStmt .block sampleTuple) sampleEnv sampleState () s' ∧
    s'.scopes.lookup "x" = some (.graph x.name (if x.isConst then .constant else .intermediate) none) ∧
    r.frames = sampleState.frames ∧ Returns (lowerOperand sampleItem (some "x")) sampleEnv r x r' := by
  have hr : Returns (lowerStmt .block sampleTuple) sampleEnv sampleState () _ := returns_of_isSome (by decide +kernel)
  have hitem : (["n", "x", "i"].map (Expr.name default)).zip [.name default "i", sampleItem, .name default "n"] =
    [(.name default "n", .name default "i")] ++ (.name default "x", sampleItem) ::
      [(.name default "i", .name default "n")] := rfl
  have hapart : sampleState.Apart sampleItem ["n"] := by
    intro y hy
    obtain rfl := List.mem_singleton.1 hy
    refine ⟨show "n" ∉ sampleItem.mentions by decide, ?_⟩
    rintro ⟨x, hx, id, fn, captured, hlookup, -⟩
    have hunbound : ∀ x ∈ sampleItem.mentions, sampleState.scopes.lookup x ≠ some (.function id fn captured) := by
      simp [sampleItem, Expr.mentions, Expr.mentionsAll, Expr.mentionsKeywords, sampleState, Scopes.lookup, Members.get?]
    exact hunbound x hx hlookup
  obtain ⟨-, x, r, r', -, -, hlookup, hold⟩ := tuple_target_value hr hitem (by decide)
  obtain ⟨hframes, hx⟩ := hold hapart
  exact ⟨_, x, _, _, hr, hlookup, hframes, hx⟩

/-- A swap of the parameters. -/
def swapSource : String :=
  "def f(a, b):\n" ++
  "    a, b = b, a\n" ++
  "    return op.Sub(a, b)\n"

/-- The second item reads the `a` that the first has bound, so both names stand for the old `b`. -/
theorem swap_binds_both_alike : ∃ stmt f, Syntax.parseScript swapSource = .ok [stmt] ∧
    (Compiler.sampleModule.compile stmt).1 = .ok f ∧
      f.fn.nodes.map (fun n => (n.op.name, n.inputs)) = [("Sub", ["b", "b"])] :=
  Compiler.exists_of_compileOnly _ _ _ (by decide +kernel)

end OpGraph.Lowering
