import OpGraph.Proofs.LoopNames

/-!
The arguments of a call and its node. What is divided among the parameters comes to one input or one attribute each. Not
every keyword is divided, though: if the parameters of the callee are known, one that is given again later is dropped,
and if they are not, it becomes another attribute of the same name.
-/

namespace OpGraph

open List

namespace Members

variable {α : Type} {ms ks : List (String × α)}

/-- The members that no later one replaces. -/
def latest (ks : List (String × α)) : List (String × α) :=
  ks.pwFilter fun k k' => k.1 ≠ k'.1

theorem latest_eq_self (h : (ks.map Prod.fst).Nodup) : latest ks = ks :=
  pwFilter_eq_self.2 (pairwise_map.1 h)

theorem nodup_latest (ks : List (String × α)) : ((latest ks).map Prod.fst).Nodup :=
  pairwise_map.2 (pairwise_pwFilter ks)

theorem latest_cons (k : String × α) (ks : List (String × α)) :
    latest (k :: ks) = if k.1 ∈ ks.map Prod.fst then latest ks else k :: latest ks := by
  have hlater : (∀ k' ∈ latest ks, k.1 ≠ k'.1) ↔ k.1 ∉ ks.map Prod.fst := by
    rw [latest, forall_mem_pwFilter fun h => (h.ne_or_ne _).imp_right Ne.symm]
    simp only [mem_map, not_exists, not_and]
    exact forall₂_congr fun _ _ => ne_comm
  split
  · rename_i hk
    exact pwFilter_cons_of_neg fun h => hlater.1 h hk
  · rename_i hk
    exact pwFilter_cons_of_pos (hlater.2 hk)

theorem perm_set (h : (ms.map Prod.fst).Nodup) (key : String) (v : α) :
    (set ms key v).Perm ((key, v) :: ms.filter (·.1 ≠ key)) := by
  induction ms with
  | nil => exact .refl _
  | cons m ms ih =>
    obtain ⟨k, w⟩ := m
    obtain ⟨hk, hms⟩ := nodup_cons.1 h
    rw [set]
    split
    · rename_i heq
      have hall : ms.filter (·.1 ≠ key) = ms := filter_eq_self.2 fun m hm => by
        simpa using fun hkey => hk (mem_map.2 ⟨m, hm, hkey.trans heq.symm⟩)
      rw [filter_cons_of_neg (by simpa using heq), hall, heq]
    · rename_i hne
      rw [filter_cons_of_pos (by simpa using hne)]
      exact ((ih hms).cons _).trans (.swap ..)

theorem perm_foldl_set (h : (ms.map Prod.fst).Nodup) : (ks.foldl (fun ms (name, x) => set ms name x) ms).Perm
    (ms.filter (·.1 ∉ ks.map Prod.fst) ++ latest ks) := by
  induction ks generalizing ms with
  | nil => simp [latest]
  | cons k ks ih =>
    have hset := perm_set h k.1 k.2
    have hnodup : ((set ms k.1 k.2).map Prod.fst).Nodup := by
      refine (hset.map _).nodup_iff.2 (nodup_cons.2 ⟨by simp, ?_⟩)
      exact (filter_sublist.map _).nodup h
    refine (ih hnodup).trans (((hset.filter _).append_right _).trans ?_)
    have hfilter : (ms.filter (·.1 ≠ k.1)).filter (·.1 ∉ ks.map Prod.fst) =
        ms.filter (·.1 ∉ (k :: ks).map Prod.fst) := by
      rw [filter_filter]
      refine filter_congr fun m _ => Bool.eq_iff_iff.2 ?_
      simp only [Bool.and_eq_true, decide_eq_true_eq, map_cons, mem_cons, not_or]
      exact and_comm
    rw [filter_cons, hfilter, latest_cons]
    by_cases hk : k.1 ∈ ks.map Prod.fst
    · simp [hk]
    · simpa [hk] using perm_middle.symm

end Members

namespace Arguments

variable {α : Type} {params : List CallParam} {args : List α} {keywords : List (String × α)} {callee : String}
  {r : Arguments α}

theorem sublist_attrs (keywords : List (String × α)) (params : List CallParam) (args : List α) :
    (((deal params args).flatMap (·.attrs keywords)).map Prod.fst).Sublist (params.map (·.name)) := by
  induction params generalizing args with
  | nil => exact .slnil
  | cons p ps ih =>
    rw [deal_cons, flatMap_cons, map_append, map_cons, ← singleton_append]
    refine List.Sublist.append ?_ (ih _)
    unfold Share.attrs Share.given Share.named Share.isOpen
    cases hv : p.isVariadic with
    | true => simp
    | false =>
      cases args with
      | nil => cases p.isInput <;> cases Members.get? keywords p.name <;> simp
      | cons a args => cases p.isInput <;> simp

/-- **Arguments that are divided among known parameters**: all positional ones, and the keywords that are kept. A keyword
fills every parameter of its name that gets no positional argument, and there is one. -/
structure Divides (params : List CallParam) (args : List α) (keywords kept : List (String × α)) (r : Arguments α) :
    Prop where
  latest : kept.Perm (Members.latest keywords)
  fits : Fits params args kept
  perm : (r.inputs.reduceOption ++ r.attrs.map Prod.snd).Perm
    (args ++ ((deal params args).flatMap (·.named kept)).map Prod.snd)
  once : (params.map (·.name)).Nodup → ((deal params args).flatMap (·.named kept)).Perm kept
  distinct : (params.map (·.name)).Nodup → (r.attrs.map Prod.fst).Nodup

theorem divides_split (h : split (some params) args keywords callee = .ok r) :
    ∃ kept, Divides params args keywords kept r := by
  have hlatest := @Members.perm_foldl_set α [] keywords .nil
  rw [filter_nil, nil_append] at hlatest
  have hnodup := (hlatest.map Prod.fst).nodup_iff.2 (Members.nodup_latest keywords)
  obtain ⟨hfits, hr⟩ := (separate_eq_ok_iff _ callee params args r).1 h
  refine ⟨_, hlatest, hfits, perm_separate h, fun hparams => perm_named hparams hnodup hfits, fun hparams => ?_⟩
  rw [← hr]
  exact (sublist_attrs ..).nodup hparams

theorem Divides.perm_keywords {kept : List (String × α)} (h : Divides params args keywords kept r)
    (hparams : (params.map (·.name)).Nodup) (hkeywords : (keywords.map Prod.fst).Nodup) :
    (r.inputs.reduceOption ++ r.attrs.map Prod.snd).Perm (args ++ keywords.map Prod.snd) := by
  have hlatest := h.latest
  rw [Members.latest_eq_self hkeywords] at hlatest
  exact h.perm.trans ((((h.once hparams).trans hlatest).map _).append_left args)

end Arguments

namespace Lowering

variable {env : Env} {pos : Position} {s s' : State} {α β : Type} {f : α → Lower β} {xs : List α}
variable {a : Option NodeAttribute} {k : String × Part}

theorem forall₂_of_mapM : ∀ {s : State} {ys : List β}, Returns (xs.mapM f) env s ys s' →
    Forall₂ (fun x y => ∃ s s', Returns (f x) env s y s') xs ys := by
  induction xs with
  | nil =>
    intro s ys hr
    cases hr
    exact .nil
  | cons x xs ih =>
    intro s ys hr
    simp only [mapM_cons, returns_bind, returns_pure] at hr
    obtain ⟨y, s₁, hy, ys, s₂, hys, rfl, rfl⟩ := hr
    exact .cons ⟨s, s₁, hy⟩ (ih hys)

theorem forall₂_of_filterMapM {f : α → Lower (Option β)} : ∀ {s : State} {ys : List β},
    Returns (xs.filterMapM f) env s ys s' →
    ∃ os, Forall₂ (fun x o => ∃ s s', Returns (f x) env s o s') xs os ∧ ys = os.reduceOption := by
  induction xs with
  | nil =>
    intro s ys hr
    cases hr
    exact ⟨[], .nil, rfl⟩
  | cons x xs ih =>
    intro s ys hr
    simp only [filterMapM_cons, returns_bind] at hr
    obtain ⟨o, s₁, ho, hr⟩ := hr
    cases o with
    | none =>
      obtain ⟨os, hos, rfl⟩ := ih hr
      exact ⟨none :: os, .cons ⟨s, s₁, ho⟩ hos, rfl⟩
    | some y =>
      obtain ⟨ys, s₂, hys, ⟨⟩⟩ := returns_bind.1 hr
      obtain ⟨os, hos, rfl⟩ := ih hys
      exact ⟨some y :: os, .cons ⟨s, s₁, ho⟩ hos, rfl⟩

/-! ### The node of a call -/

/-- An argument that is an attribute gives an attribute of its name, or none if it is `None`. -/
def GivesAttribute (globals : Globals) (k : String × Part) (a : Option NodeAttribute) : Prop :=
  (∀ w ∈ a, w.value.name = k.1) ∧ (a = none → Evaluation.evalLiteral globals k.2.expr = .ok .none)

theorem HoldsLiteral.gives (h : HoldsLiteral env.globals k.1 k.2.expr a) : GivesAttribute env.globals k a := by
  obtain ⟨v, hv, ⟨rfl, rfl⟩ | ⟨w, hw, rfl⟩⟩ := h
  · exact ⟨by simp, fun _ => hv⟩
  · exact ⟨by simp [(ofLiteral_value hw).1], by simp⟩

theorem gives_attributeOf (hr : Returns (attributeOf k.1 k.2.expr) env s a s') : GivesAttribute env.globals k a := by
  unfold attributeOf at hr
  split at hr
  · simp only [returns_bind, returns_lookup] at hr
    obtain ⟨b, t, -, hr⟩ := hr
    split at hr
    · cases hr
      exact ⟨by simp [Interchange.Attribute.reference], by simp⟩
    · simp only [returns_bind, returns_lift, returns_pure] at hr
      obtain ⟨u, t, -, w, t', ⟨hw, -⟩, rfl, -⟩ := hr
      exact ⟨by simp [GraphFunction.value_toAttribute hw, GraphFunction.attribute], by simp⟩
    · cases hr
    · exact (returns_literalAttribute_iff.1 hr).1.gives
  · exact (returns_literalAttribute_iff.1 hr).1.gives

/-- The operand that an argument is lowered to, or that an empty place has. -/
def ComesTo (env : Env) : Option Part → Operand → Prop
  | none, a => a = .omitted
  | some p, a => ∃ s s', Returns (argument p) env s a s'

/-- **The node of a call** with its target and with the arguments as they are divided: each becomes one input, or gives at
most one attribute. -/
structure NodeOf (env : Env) (t : Target) (divided : Arguments Part) (r : Request) : Prop where
  op : r.op = opName t.op
  inputs : ∃ operands casts, List.Forall₂ (ComesTo env) divided.inputs operands ∧
    List.Forall₂ (BecomesInput casts) operands r.inputs
  attributes : ∃ as, List.Forall₂ (GivesAttribute env.globals) divided.attrs as ∧ r.attributes = as.reduceOption

theorem NodeOf.nodup {t : Target} {divided : Arguments Part} {r : Request} (h : NodeOf env t divided r)
    (hnodup : (divided.attrs.map Prod.fst).Nodup) : (r.attributes.map (·.value.name)).Nodup := by
  obtain ⟨as, has, hr⟩ := h.attributes
  rw [hr]
  refine List.Sublist.nodup ?_ hnodup
  clear hr hnodup
  generalize divided.attrs = ks at has ⊢
  induction has with
  | nil => exact .slnil
  | @cons k a _ _ ha _ ih =>
    cases a with
    | none => exact ih.cons _
    | some w => simpa [reduceOption_cons_of_some, ha.1 w rfl] using ih

theorem nodeOf_call {func : Expr} {args : List Part} {keywords : List (String × Part)} {r : Request}
    (hr : Returns (call pos func args keywords) env s r s') : ∃ t s₁ divided,
      Returns (calleeOf func >>= (targetOf · pos)) env s t s₁ ∧
      Arguments.split t.params args keywords t.op.text = .ok divided ∧ NodeOf env t divided r := by
  simp only [call, returns_bind, returns_pure] at hr
  obtain ⟨c, s₁, hcallee, t, s₂, ht, divided, s₃, hsplit, operands, s₄, hops, as, s₅, has, inputs, s₆, hp, rfl, rfl⟩ := hr
  obtain ⟨pairs, r, -, hpairs, hfold, rfl, -⟩ := returns_promote hp
  obtain ⟨os, hos, rfl⟩ := forall₂_of_filterMapM has
  refine ⟨t, s₂, divided, returns_bind.2 ⟨c, s₁, hcallee, ht⟩, (returns_splitArguments hsplit).1, rfl,
    ⟨operands, r.casts, (forall₂_of_mapM hops).imp fun x a hx => ?_, (castsOf_assign (N := True) hpairs s₅ hfold).1.inputs⟩,
    os, hos.imp fun k a ha => ?_, rfl⟩
  · obtain ⟨s, s', hx⟩ := hx
    cases x with
    | none => exact (returns_pure.1 hx).1.symm
    | some p => exact ⟨s, s', hx⟩
  · obtain ⟨s, s', ha⟩ := ha
    exact gives_attributeOf ha

/-- **Keywords of a call.** If the parameters of the callee are not known, every keyword is an attribute; if they are, the
last keyword of each name is kept. So every keyword counts once if none is repeated and no two parameters have the same
name; and attributes have different names unless the parameters have not, or are unknown and a keyword is repeated. -/
theorem keywords_of_call {func : Expr} {args : List Part} {keywords : List (String × Part)} {r : Request}
    (hr : Returns (call pos func args keywords) env s r s') : ∃ t s₁ divided,
      Returns (calleeOf func >>= (targetOf · pos)) env s t s₁ ∧ NodeOf env t divided r ∧
      (t.params = none → divided = ⟨args.map some, keywords⟩) ∧
      (∀ ps ∈ t.params, ∃ kept, Arguments.Divides ps args keywords kept divided) ∧
      ((∀ ps ∈ t.params, (ps.map (·.name)).Nodup) →
        ((keywords.map Prod.fst).Nodup →
          (divided.inputs.reduceOption ++ divided.attrs.map Prod.snd).Perm (args ++ keywords.map Prod.snd)) ∧
        ((t.params = none → (keywords.map Prod.fst).Nodup) → (r.attributes.map (·.value.name)).Nodup)) := by
  obtain ⟨t, s₁, divided, ht, hsplit, hnode⟩ := nodeOf_call hr
  refine ⟨t, s₁, divided, ht, hnode, ?_⟩
  cases hps : t.params with
  | none =>
    rw [hps] at hsplit
    obtain rfl := Except.ok.inj hsplit
    refine ⟨fun _ => rfl, by simp, fun _ => ⟨fun _ => ?_, fun hkeywords => hnode.nodup (hkeywords rfl)⟩⟩
    simp [List.reduceOption]
  | some ps =>
    rw [hps] at hsplit
    obtain ⟨kept, hkept⟩ := Arguments.divides_split hsplit
    refine ⟨by simp, fun qs hqs => ?_, fun hparams => ⟨hkept.perm_keywords (hparams ps rfl), fun _ => ?_⟩⟩
    · obtain rfl := Option.some.inj hqs
      exact ⟨kept, hkept⟩
    · exact hnode.nodup (hkept.distinct (hparams ps rfl))

/-! ### Repeated keywords -/

def gatherOpset : Opset where
  domain := ""
  version := 15
  registry := .ofList [⟨"Gather", "", 1, [{ name := "data", type := "T" }, { name := "indices", type := "I" }],
    [{ name := "output", type := "T" }], [{ name := "axis", type := .int, required := false }]⟩]

def gatherEnv : Env :=
  { sampleEnv with globals := [("op", .opset none gatherOpset)] }

def gatherKeywords : List (String × Part) :=
  lowerKeywords [⟨default, "indices", .name default "i"⟩, ⟨default, "axis", .constant default (.int 0)⟩,
    ⟨default, "axis", .constant default (.int 1)⟩]

/-- `op.Gather(x, indices=i, axis=0, axis=1)` -/
def gatherCall : Lower Request :=
  call default (.attr default (.name default "op") "Gather") (lowerParts [.name default "x"]) gatherKeywords

theorem keywords_of_call_sample : ∃ r s' t divided, Returns gatherCall gatherEnv sampleState r s' ∧
    NodeOf gatherEnv t divided r ∧
    ∀ ps ∈ t.params, ∃ kept, Arguments.Divides ps (lowerParts [.name default "x"]) gatherKeywords kept divided := by
  have hsome : (outcome gatherCall gatherEnv sampleState).1.toOption.isSome := by decide +kernel
  rcases hr : outcome gatherCall gatherEnv sampleState with ⟨e | r, s'⟩
  · rw [hr] at hsome
    cases hsome
  · obtain ⟨t, -, divided, -, hnode, -, hdivides, -⟩ := keywords_of_call hr
    exact ⟨r, s', t, divided, hr, hnode, hdivides⟩

/-- A call of an operator that is known, inside one of a nested function. -/
def repeatedSource : String :=
  "def f(x, i):\n" ++
  "    def g(y):\n" ++
  "        return op.Neg(y)\n" ++
  "    return g(op.Gather(x, i, axis=0, axis=1), k=2, k=3)\n"

def intAttributes (n : GraphNode) : List (String × Option ℤ) :=
  n.attributes.map fun a => (a.value.name, match a.value.value with
    | .int i => some i
    | _ => none)

/-- Of the repeated keywords, one is lost, and the other two are attributes with the same name. -/
theorem repeated_keywords_accepted : ∃ stmt f, Syntax.parseScript repeatedSource = .ok [stmt] ∧
    ({ Compiler.sampleModule with globals := [("op", .opset none gatherOpset)] }.compile stmt).1 = .ok f ∧
      f.fn.nodes.map (fun n => (n.op.name, intAttributes n)) =
        [("Gather", [("axis", some 1)]), ("g", [("k", some 2), ("k", some 3)])] :=
  Compiler.exists_of_compileOnly { Compiler.sampleModule with globals := [("op", .opset none gatherOpset)] } _ _ (by decide +kernel)

end Lowering

end OpGraph
