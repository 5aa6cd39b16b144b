import OpGraph.Proofs.Graph.Parts

/-!
Functions that are built step by step. Every step uses only values that exist by then: those of the function itself, and
those of the functions around it that existed when its scope was entered. What a finished function refers to is
therefore a value of the function where the reference stands, written before it, or a value of a function around.
-/

namespace OpGraph

open List

variable {f : GraphFunction} {x : String}

/-- What is around a scope when it is entered: the values of the functions there, and the functions defined in them. -/
structure Surroundings where
  values : List String := []
  functions : List GraphFunction := []

namespace GraphFunction

def within (f : GraphFunction) (outer : Surroundings) : Surroundings :=
  ⟨f.values ++ outer.values, f.nested ++ outer.functions⟩

/-- The graphs among attributes are those of the given functions. -/
def HasGraphs (fs : List GraphFunction) (attributes : List NodeAttribute) : Prop :=
  ∀ a ∈ attributes, ∀ g, a.value.value = .graph g → ∃ q ∈ fs, g = q.graph

theorem HasGraphs.mono {fs gs : List GraphFunction} {attributes : List NodeAttribute} (h : HasGraphs fs attributes)
    (hs : ∀ f ∈ fs, f ∈ gs) : HasGraphs gs attributes := by
  intro a ha g hg
  obtain ⟨q, hq, rfl⟩ := h a ha g hg
  exact ⟨q, hs q hq, rfl⟩

/-- `Built outer f inner`: the function `f` is the result of construction steps in a scope that was entered when `outer`
was around it; `inner` are the functions whose scopes were entered and left in between. The blocks of a node, and the
functions defined in `f`, are among these. A graph attribute is the graph of a block, or of a function defined before. -/
inductive Built : Surroundings → GraphFunction → List GraphFunction → Prop where
  | start (outer : Surroundings) (name domain : String) : Built outer { name, domain } []
  | param {outer : Surroundings} {f : GraphFunction} {inner : List GraphFunction} (p : GraphParam) :
    Built outer f inner → Built outer { f with params := f.params ++ [p] } inner
  | node {outer : Surroundings} {f : GraphFunction} {inner : List GraphFunction} (n : GraphNode) :
    Built outer f inner → (∀ x ∈ n.inputs, x = "" ∨ x ∈ (f.within outer).values) → (∀ b ∈ n.blocks, b ∈ inner) →
      HasGraphs (n.blocks ++ (f.within outer).functions) n.attributes → Built outer (f.addNode n) inner
  | output {outer : Surroundings} {f : GraphFunction} {inner : List GraphFunction} (v : GraphVar) :
    Built outer f inner → v.name ∈ (f.within outer).values → Built outer { f with outputs := f.outputs ++ [v] } inner
  | inside {outer : Surroundings} {f g : GraphFunction} {inner deeper : List GraphFunction} :
    Built outer f inner → Built (f.within outer) g deeper → Built outer f (g :: inner)
  | nested {outer : Surroundings} {f g : GraphFunction} {inner : List GraphFunction} :
    Built outer f inner → g ∈ inner → Built outer (f.addNested g) inner
  | note {outer : Surroundings} {f : GraphFunction} {inner : List GraphFunction}
    (called : List (String × Except Error Interchange.Function)) (doc : String) :
    Built outer f inner → Built outer { f with called, doc } inner

/-! ### Values under construction steps -/

theorem values_addNode (f : GraphFunction) (n : GraphNode) : (f.addNode n).values = f.values ++ n.outputs := by
  simp [values, inputNames, inputs, assigned, addNode]

theorem mem_inputNames_param {p : GraphParam} (h : x ∈ f.inputNames) :
    x ∈ ({ f with params := f.params ++ [p] } : GraphFunction).inputNames := by
  unfold inputNames inputs at *
  rw [filterMap_append, map_append]
  exact mem_append_left _ h

theorem mem_values_param {p : GraphParam} (h : x ∈ f.values) :
    x ∈ ({ f with params := f.params ++ [p] } : GraphFunction).values :=
  (mem_append.1 h).elim (fun h => mem_append_left _ (mem_inputNames_param h)) (mem_append_right _)

/-! ### References -/

/-- A function refers to a name when it has the nodes `before`: as an input of its next node, or as an output once it
has all nodes. The empty name stands for an omitted input. -/
def RefersTo (f : GraphFunction) (x : String) (before : List GraphNode) : Prop :=
  (∃ n after, f.nodes = before ++ n :: after ∧ x ∈ n.inputs ∧ x ≠ "") ∨ (f.nodes = before ∧ x ∈ f.outputNames)

/-- What a function itself refers to are its inputs, what nodes before wrote, and values from around; its graph
attributes are the graphs of blocks, of functions defined in it, and of functions from around. -/
structure Resolves (values : String → Prop) (functions : GraphFunction → Prop) (f : GraphFunction) : Prop where
  names : ∀ x before, f.RefersTo x before → x ∈ f.inputNames ∨ x ∈ before.flatMap (·.outputs) ∨ values x
  graphs : ∀ n ∈ f.nodes, ∀ a ∈ n.attributes, ∀ g, a.value.value = .graph g →
    ∃ q, (q ∈ n.blocks ∨ q ∈ f.nested ∨ functions q) ∧ g = q.graph

theorem Resolves.imp {v v' : String → Prop} {fs fs' : GraphFunction → Prop} (h : f.Resolves v fs) (hv : ∀ x, v x → v' x)
    (hf : ∀ g, fs g → fs' g) : f.Resolves v' fs' where
  names := fun x before hx => (h.names x before hx).imp_right (Or.imp_right (hv x))
  graphs := by
    intro n hn a ha g hg
    obtain ⟨q, hq, rfl⟩ := h.graphs n hn a ha g hg
    exact ⟨q, hq.imp_right (Or.imp_right (hf q)), rfl⟩

/-- A name that a function between `g` and `k` has as a value. -/
def ValueBetween (g k : GraphFunction) (x : String) : Prop :=
  ∃ p ∈ g.parts, p.Encloses k ∧ x ∈ p.values

/-- A function defined in one between `g` and `k`. -/
def FunctionBetween (g k q : GraphFunction) : Prop :=
  ∃ p ∈ g.parts, p.Encloses k ∧ q ∈ p.nested

/-- What is known of a function under construction: it refers to what is in it or around it, its blocks and the functions
defined in it were built inside it, and these refer to what is in them, between it and them, in it, or around it. -/
structure Resolved (outer : Surroundings) (f : GraphFunction) (inner : List GraphFunction) : Prop where
  own : f.Resolves (· ∈ outer.values) (· ∈ outer.functions)
  blocks : ∀ n ∈ f.nodes, ∀ b ∈ n.blocks, b ∈ inner
  nested : ∀ g ∈ f.nested, g ∈ inner
  inside : ∀ g ∈ inner, ∀ k ∈ g.parts, k.Resolves (fun x => g.ValueBetween k x ∨ x ∈ (f.within outer).values)
    (fun q => g.FunctionBetween k q ∨ q ∈ (f.within outer).functions)

namespace Resolved

variable {outer : Surroundings} {f' : GraphFunction} {inner : List GraphFunction}

theorem inside_mono (h : Resolved outer f inner) (f' : GraphFunction) (hv : ∀ x ∈ f.values, x ∈ f'.values)
    (hf : ∀ g ∈ f.nested, g ∈ f'.nested) {g k : GraphFunction} (hg : g ∈ inner) (hk : k ∈ g.parts) :
    k.Resolves (fun x => g.ValueBetween k x ∨ x ∈ (f'.within outer).values)
      (fun q => g.FunctionBetween k q ∨ q ∈ (f'.within outer).functions) := by
  refine (h.inside g hg k hk).imp (fun x hx => hx.imp_right fun hx => ?_) fun q hq => hq.imp_right fun hq => ?_
  · rcases mem_append.1 hx with hx | hx
    · exact mem_append_left _ (hv x hx)
    · exact mem_append_right _ hx
  · rcases mem_append.1 hq with hq | hq
    · exact mem_append_left _ (hf q hq)
    · exact mem_append_right _ hq

theorem mono (h : Resolved outer f inner) (hn : f'.nodes = f.nodes) (ho : f'.outputs = f.outputs)
    (hs : f'.nested = f.nested) (hi : ∀ x ∈ f.inputNames, x ∈ f'.inputNames) : Resolved outer f' inner := by
  refine ⟨⟨?_, ?_⟩, by rw [hn]; exact h.blocks, by rw [hs]; exact h.nested, ?_⟩
  · intro x before hx
    unfold RefersTo outputNames at hx
    rw [hn, ho] at hx
    exact (h.own.names x before hx).imp_left (hi x)
  · rw [hn, hs]
    exact h.own.graphs
  · intro g hg k hk
    refine h.inside_mono f' (fun x hx => ?_) (by rw [hs]; exact fun _ hq => hq) hg hk
    unfold values assigned at *
    rw [hn]
    exact (mem_append.1 hx).elim (fun hx => mem_append_left _ (hi x hx)) (mem_append_right _)

theorem parts (h : Resolved outer f inner) {k : GraphFunction} (hk : k ∈ f.parts) :
    k.Resolves (fun x => f.ValueBetween k x ∨ x ∈ outer.values)
      (fun q => f.FunctionBetween k q ∨ q ∈ outer.functions) := by
  rcases mem_parts.1 hk with rfl | hin
  · exact h.own.imp (fun _ hx => .inr hx) fun _ hq => .inr hq
  have hsub : ∀ g ∈ inner, (∀ p ∈ g.parts, p ∈ f.parts) → k ∈ g.parts →
      k.Resolves (fun x => f.ValueBetween k x ∨ x ∈ outer.values)
        (fun q => f.FunctionBetween k q ∨ q ∈ outer.functions) := by
    intro g hg hsub hkg
    refine (h.inside g hg k hkg).imp (fun x hx => ?_) fun q hq => ?_
    · rcases hx with ⟨p, hp, hpk, hx⟩ | hx
      · exact .inl ⟨p, hsub p hp, hpk, hx⟩
      · exact (mem_append.1 hx).imp_left fun hx => ⟨f, self_mem_parts f, hin, hx⟩
    · rcases hq with ⟨p, hp, hpk, hq⟩ | hq
      · exact .inl ⟨p, hsub p hp, hpk, hq⟩
      · exact (mem_append.1 hq).imp_left fun hq => ⟨f, self_mem_parts f, hin, hq⟩
  rcases hin with ⟨n, hn, b, hb, hkb⟩ | ⟨g, hg, hkg⟩
  · exact hsub b (h.blocks n hn b hb) (fun p hp => mem_parts.2 (.inr (.inl ⟨n, hn, b, hb, hp⟩))) hkb
  · exact hsub g (h.nested g hg) (fun p hp => mem_parts.2 (.inr (.inr ⟨g, hg, hp⟩))) hkg

end Resolved

theorem RefersTo.of_addNode {n : GraphNode} {before : List GraphNode} (h : (f.addNode n).RefersTo x before) :
    (∃ before', f.RefersTo x before' ∧ ∀ m ∈ before', m ∈ before) ∨ (before = f.nodes ∧ x ∈ n.inputs ∧ x ≠ "") := by
  rcases h with ⟨m, after, heq, hx, hne⟩ | ⟨rfl, hx⟩
  · have heq : f.nodes ++ [n] = before ++ m :: after := heq
    rcases eq_nil_or_concat after with rfl | ⟨after, l, rfl⟩
    · obtain ⟨rfl, hm⟩ := append_inj' heq rfl
      obtain rfl := (List.cons.inj hm).1
      exact .inr ⟨rfl, hx, hne⟩
    · rw [concat_eq_append, ← cons_append, ← append_assoc] at heq
      obtain ⟨hf, -⟩ := append_inj' heq rfl
      exact .inl ⟨before, .inl ⟨m, after, hf, hx, hne⟩, fun _ hm => hm⟩
  · exact .inl ⟨f.nodes, .inr ⟨rfl, hx⟩, fun m hm => mem_append_left _ hm⟩

theorem Resolves.addNode {n : GraphNode} {outer : Surroundings}
    (h : f.Resolves (· ∈ outer.values) (· ∈ outer.functions))
    (hinputs : ∀ x ∈ n.inputs, x = "" ∨ x ∈ (f.within outer).values)
    (hgraphs : HasGraphs (n.blocks ++ (f.within outer).functions) n.attributes) :
    (f.addNode n).Resolves (· ∈ outer.values) (· ∈ outer.functions) := by
  refine ⟨fun x before hx => ?_, fun m hm a ha g hg => ?_⟩
  · rcases hx.of_addNode with ⟨before', hx, hsub⟩ | ⟨rfl, hx, hne⟩
    · refine (h.names x before' hx).imp_right (Or.imp_left fun hx => ?_)
      obtain ⟨m, hm, hx⟩ := mem_flatMap.1 hx
      exact mem_flatMap.2 ⟨m, hsub m hm, hx⟩
    · rcases mem_append.1 ((hinputs x hx).resolve_left hne) with hx | hx
      · exact (mem_append.1 hx).imp_right .inl
      · exact .inr (.inr hx)
  · rcases mem_append.1 (show m ∈ f.nodes ++ [n] from hm) with hm | hm
    · exact h.graphs m hm a ha g hg
    · obtain rfl := mem_singleton.1 hm
      obtain ⟨q, hq, rfl⟩ := hgraphs a ha g hg
      refine ⟨q, ?_, rfl⟩
      rcases mem_append.1 hq with hq | hq
      · exact .inl hq
      · exact .inr (mem_append.1 hq)

theorem Built.resolved {outer : Surroundings} {inner : List GraphFunction} (h : Built outer f inner) :
    Resolved outer f inner := by
  induction h with
  | start outer name domain =>
    exact ⟨⟨by simp [RefersTo, outputNames], by simp⟩, by simp, by simp, by simp⟩
  | param p _ ih =>
    exact ih.mono rfl rfl rfl fun x hx => mem_inputNames_param hx
  | @node outer f inner n _ hinputs hblocks hgraphs ih =>
    refine ⟨ih.own.addNode hinputs hgraphs, ?_, ih.nested, ?_⟩
    · exact forall_mem_append.2 ⟨ih.blocks, forall_mem_singleton.2 hblocks⟩
    · intro g hg k hk
      refine ih.inside_mono (f.addNode n) (fun x hx => ?_) (fun _ hq => hq) hg hk
      rw [values_addNode]
      exact mem_append_left _ hx
  | @output outer f inner v _ hv ih =>
    refine ⟨⟨?_, ih.own.graphs⟩, ih.blocks, ih.nested, ih.inside⟩
    rintro x before (hx | ⟨rfl, hx⟩)
    · exact ih.own.names x before (.inl hx)
    simp only [outputNames, map_append, map_cons, map_nil, mem_append, mem_singleton] at hx
    rcases hx with hx | rfl
    · exact ih.own.names x _ (.inr ⟨rfl, hx⟩)
    · rcases mem_append.1 hv with hv | hv
      · exact (mem_append.1 hv).imp_right .inl
      · exact .inr (.inr hv)
  | @inside outer f g inner deeper _ _ ihf ihg =>
    exact ⟨ihf.own, fun n hn b hb => mem_cons_of_mem _ (ihf.blocks n hn b hb),
      fun k hk => mem_cons_of_mem _ (ihf.nested k hk), forall_mem_cons.2 ⟨fun k hk => ihg.parts hk, ihf.inside⟩⟩
  | @nested outer f g inner _ hg ih =>
    have hmono : ∀ q ∈ f.nested, q ∈ (f.addNested g).nested := fun q hq => mem_append_left _ hq
    refine ⟨⟨ih.own.names, ?_⟩, ih.blocks, ?_, fun g' hg' k hk => ?_⟩
    · intro n hn a ha gr hgr
      obtain ⟨q, hq, rfl⟩ := ih.own.graphs n hn a ha gr hgr
      exact ⟨q, hq.imp_right (Or.imp_left (hmono q)), rfl⟩
    · exact forall_mem_append.2 ⟨ih.nested, forall_mem_singleton.2 hg⟩
    · exact ih.inside_mono (f.addNested g) (fun _ hx => hx) hmono hg' hk
  | note called doc _ ih =>
    exact ih.mono rfl rfl rfl fun x hx => hx

end GraphFunction

end OpGraph
