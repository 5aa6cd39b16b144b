import OpGraph.Proofs.Graph.Shape

/-!
Imports of operator domains. A function lists each domain once, those of its own nodes and those that its graph
attributes bring, so the list covers every node at any depth, and with the lists of the functions that are shipped it
covers a whole model.
-/

namespace OpGraph

open List

variable {f : GraphFunction} {is : Imports} {v : Int} {a : NodeAttribute} {d : String} {i : String × Int}
variable {js : Imports} {irVersion : Int} {g : Interchange.Function} {fs : List (String × Interchange.Function)}
variable {model : Interchange.Model} {name producer x : String}

/-! ### Domains at any depth -/

namespace Interchange

mutual
def AttributeValue.domains : AttributeValue → List String
  | .graph g => g.domains
  | _ => []
def Attribute.domains : Attribute → List String
  | ⟨_, _, value⟩ => value.domains
def attributeDomains : List Attribute → List String
  | [] => []
  | a :: as => a.domains ++ attributeDomains as
/-- The domain of a node and those of the nodes in its graph attributes, at any depth. -/
def Node.domains : Node → List String
  | ⟨_, domain, _, _, attributes⟩ => domain :: attributeDomains attributes
def nodeDomains : List Node → List String
  | [] => []
  | n :: ns => n.domains ++ nodeDomains ns
def Graph.domains : Graph → List String
  | ⟨_, nodes, _, _, _, _⟩ => nodeDomains nodes
end

theorem nodeDomains_eq (ns : List Node) : nodeDomains ns = ns.flatMap Node.domains := by
  induction ns with
  | nil => rfl
  | cons n ns ih => rw [nodeDomains, ih, flatMap_cons]

theorem attributeDomains_eq (as : List Attribute) : attributeDomains as = as.flatMap Attribute.domains := by
  induction as with
  | nil => rfl
  | cons a as ih => rw [attributeDomains, ih, flatMap_cons]

theorem Attribute.domains_eq (a : Attribute) : a.domains = a.value.domains := by
  obtain ⟨_, _, value⟩ := a
  rw [domains]

theorem Node.domains_eq (n : Node) : n.domains = n.domain :: n.attributes.flatMap Attribute.domains := by
  obtain ⟨_, domain, _, _, attributes⟩ := n
  rw [domains, attributeDomains_eq]

theorem Graph.domains_eq (g : Graph) : g.domains = g.nodes.flatMap Node.domains := by
  obtain ⟨_, nodes, _, _, _, _⟩ := g
  rw [domains, nodeDomains_eq]

/-- A list of imports has each domain once, and all of the given ones. -/
structure Covers (is : List OpsetImport) (domains : List String) : Prop where
  nodup : (is.map (·.domain)).Nodup
  mem : ∀ d ∈ domains, d ∈ is.map (·.domain)

/-- The imports of a function cover its nodes at any depth. -/
def Function.Covered (f : Function) : Prop :=
  Covers f.imports (nodeDomains f.nodes)

/-- The imports of a model cover its graph and its functions at any depth, and each function covers itself. -/
structure Model.Covered (m : Model) : Prop where
  covers : Covers m.imports (m.graph.domains ++ m.functions.flatMap fun f => f.domain :: nodeDomains f.nodes)
  functions : ∀ f ∈ m.functions, f.Covered

end Interchange

open Interchange

/-! ### Lists of imports -/

namespace Imports

def domains (is : Imports) : List String :=
  is.map (·.1)

theorem mem_domains_add : x ∈ (is.add d v).domains ↔ x ∈ is.domains ∨ x = d := by
  unfold add
  split
  · rename_i hany
    obtain ⟨i, hi, hd⟩ := any_eq_true.1 hany
    obtain rfl : i.1 = d := beq_iff_eq.1 hd
    have hmem : i.1 ∈ is.domains := mem_map_of_mem hi
    constructor
    · exact .inl
    · rintro (h | rfl)
      · exact h
      · exact hmem
  · simp [domains]

theorem nodup_add (h : is.domains.Nodup) (d : String) (v : Int) : (is.add d v).domains.Nodup := by
  unfold add
  split
  · exact h
  · rename_i hany
    unfold domains
    rw [map_append, map_singleton, nodup_append]
    refine ⟨h, by simp, ?_⟩
    rintro x hx y hy rfl
    obtain rfl := mem_singleton.1 hy
    obtain ⟨i, hi, hid⟩ := mem_map.1 hx
    exact hany (any_eq_true.2 ⟨i, hi, beq_iff_eq.2 hid⟩)

theorem mem_domains_addAll : x ∈ (is.addAll js).domains ↔ x ∈ is.domains ∨ x ∈ js.domains := by
  induction js generalizing is with
  | nil => simp [addAll, domains]
  | cons j js ih =>
    change x ∈ ((is.add j.1 j.2).addAll js).domains ↔ _
    rw [ih, mem_domains_add, or_assoc]
    simp [domains]

theorem nodup_addAll (js : Imports) (h : is.domains.Nodup) : (is.addAll js).domains.Nodup := by
  induction js generalizing is with
  | nil => exact h
  | cons j js ih => exact ih (nodup_add h j.1 j.2)

theorem mem_add (h : i ∈ is.add d v) : i ∈ is ∨ i = (d, v) := by
  unfold add at h
  split at h
  · exact .inl h
  · simpa using h

theorem mem_addAll (h : i ∈ is.addAll js) : i ∈ is ∨ i ∈ js := by
  induction js generalizing is with
  | nil => exact .inl h
  | cons j js ih =>
    have h : i ∈ (is.add j.1 j.2).addAll js := h
    rcases ih h with h | h
    · refine (mem_add h).imp_right ?_
      rintro rfl
      exact mem_cons_self
    · exact .inr (mem_cons_of_mem _ h)

theorem mem_addAll_left (js : Imports) (h : i ∈ is) : i ∈ is.addAll js := by
  induction js generalizing is with
  | nil => exact h
  | cons j js ih =>
    have hadd : i ∈ is.add j.1 j.2 := by
      unfold add
      split
      · exact h
      · exact mem_append_left _ h
    exact ih hadd

theorem addAll_append (is js ks : Imports) : is.addAll (js ++ ks) = (is.addAll js).addAll ks :=
  foldl_append

theorem foldl_addAll {α : Type} (g : α → Imports) (xs : List α) (is : Imports) :
    xs.foldl (fun is x => is.addAll (g x)) is = is.addAll (xs.flatMap g) := by
  induction xs generalizing is with
  | nil => rfl
  | cons x xs ih => rw [foldl_cons, ih, flatMap_cons, addAll_append]

theorem mem_sorted {i : OpsetImport} : i ∈ is.sorted ↔ (i.domain, i.version) ∈ is := by
  unfold sorted
  rw [mem_map]
  constructor
  · rintro ⟨⟨d, v⟩, hmem, rfl⟩
    exact mem_mergeSort.1 hmem
  · exact fun h => ⟨_, mem_mergeSort.2 h, rfl⟩

theorem version_unique (h : is.domains.Nodup) {w : Int} (hv : (d, v) ∈ is) (hw : (d, w) ∈ is) : v = w :=
  (Prod.ext_iff.1 (inj_on_of_nodup_map h hv hw rfl)).2

theorem domains_sorted (is : Imports) : (is.sorted.map (·.domain)).Perm is.domains := by
  unfold sorted domains
  rw [map_map]
  exact (mergeSort_perm _ _).map _

theorem covers_sorted (h : is.domains.Nodup) {ds : List String} (hd : ∀ d ∈ ds, d ∈ is.domains) :
    Covers is.sorted ds where
  nodup := is.domains_sorted.nodup_iff.2 h
  mem := fun d hmem => is.domains_sorted.mem_iff.2 (hd d hmem)

end Imports

/-! ### Functions under construction -/

/-- The imports that an attribute brings cover its graph. -/
def NodeAttribute.Covered (a : NodeAttribute) : Prop :=
  ∀ d ∈ a.value.domains, d ∈ a.imports.domains

theorem NodeAttribute.covered_of_plain (h : ∀ g, a.value.value ≠ .graph g) : a.Covered := by
  intro d hd
  rw [Attribute.domains_eq] at hd
  cases hv : a.value.value with
  | graph g => exact absurd hv (h g)
  | _ =>
    rw [hv, AttributeValue.domains] at hd
    · cases hd
    · exact fun _ => nofun

/-- What a node brings with it: its own domain, and the imports of its graph attributes. -/
def GraphNode.imports (n : GraphNode) : Imports :=
  (n.op.domain, n.op.version) :: n.attributes.flatMap (·.imports)

namespace GraphFunction

theorem imports_eq (f : GraphFunction) : f.imports = Imports.addAll [] (f.nodes.flatMap GraphNode.imports) := by
  rw [← Imports.foldl_addAll]
  unfold imports
  congr 1
  funext is n
  exact Imports.foldl_addAll NodeAttribute.imports n.attributes (is.add n.op.domain n.op.version)

theorem nodup_imports (f : GraphFunction) : f.imports.domains.Nodup := by
  rw [imports_eq]
  exact Imports.nodup_addAll _ (by simp [Imports.domains])

/-- The imports that the attributes of a function bring cover their graphs. -/
def CoversGraphs (f : GraphFunction) : Prop :=
  ∀ n ∈ f.nodes, ∀ a ∈ n.attributes, a.Covered

/-- The graphs and the functions that a function was given are covered by what they bring. -/
structure Covered (f : GraphFunction) : Prop where
  graphs : f.CoversGraphs
  shipped : ∀ n ∈ f.nodes, ∀ g ∈ n.functions, g.2.Covered
  called : ∀ c ∈ f.called, ∀ g, c.2 = .ok g → g.Covered

/-- **Imports cover nodes**: the domains of the nodes of a function at any depth are among its imports. -/
theorem CoversGraphs.mem_imports (h : f.CoversGraphs) :
    ∀ d ∈ nodeDomains (f.nodes.map GraphNode.node), d ∈ f.imports.domains := by
  intro d hd
  rw [nodeDomains_eq] at hd
  obtain ⟨m, hm, hd⟩ := mem_flatMap.1 hd
  obtain ⟨n, hn, rfl⟩ := mem_map.1 hm
  have hbrings : d ∈ n.imports.domains := by
    rw [Node.domains_eq] at hd
    rcases mem_cons.1 hd with rfl | hd
    · exact mem_cons_self
    · obtain ⟨v, hv, hd⟩ := mem_flatMap.1 hd
      obtain ⟨a, ha, rfl⟩ := mem_map.1 hv
      obtain ⟨i, hi, rfl⟩ := mem_map.1 (h n hn a ha d hd)
      exact mem_map_of_mem (mem_cons_of_mem _ (mem_flatMap.2 ⟨a, ha, hi⟩))
  obtain ⟨i, hi, rfl⟩ := mem_map.1 hbrings
  rw [imports_eq, Imports.mem_domains_addAll]
  exact .inr (mem_map_of_mem (mem_flatMap.2 ⟨n, hn, hi⟩))

/-! ### Forms of a function -/

theorem nodes_toFunction (h : f.toFunction = .ok g) :
    g.nodes = f.nodes.map GraphNode.node ∧ g.imports = f.imports.sorted ∧ g.domain = f.domain := by
  unfold toFunction at h
  simp only [bind, Except.bind] at h
  split at h
  · cases h
  · cases h
    exact ⟨rfl, rfl, rfl⟩

theorem Covered.toFunction (hf : f.Covered) (h : f.toFunction = .ok g) : g.Covered := by
  obtain ⟨hnodes, himports, -⟩ := nodes_toFunction h
  unfold Interchange.Function.Covered
  rw [hnodes, himports]
  exact Imports.covers_sorted f.nodup_imports hf.graphs.mem_imports

theorem imports_toAttribute (h : f.toAttribute name = .ok a) : a.imports = f.imports := by
  unfold toAttribute at h
  obtain ⟨g, -, h⟩ := bind_eq_ok.1 h
  cases h
  rfl

theorem domains_graph (f : GraphFunction) : f.graph.domains = nodeDomains (f.nodes.map GraphNode.node) := by
  rw [Graph.domains_eq, nodeDomains_eq, graph]

theorem CoversGraphs.toAttribute (hf : f.CoversGraphs) (h : f.toAttribute name = .ok a) : a.Covered := by
  intro d hd
  rw [value_toAttribute h] at hd
  rw [imports_toAttribute h]
  refine hf.mem_imports d ?_
  rwa [← domains_graph]

theorem mem_functions (h : f.functions = .ok fs) {g : String × Interchange.Function} (hg : g ∈ fs) :
    (∃ n ∈ f.nodes, g ∈ n.functions) ∨ ∃ c ∈ f.called, c.2 = .ok g.2 := by
  have hshipped : ∀ {ns : List GraphNode} {gs : List (String × Interchange.Function)},
      g ∈ ns.foldl (fun fs n => n.functions.foldl (fun fs p => Members.set fs p.1 p.2) fs) gs →
      (∃ n ∈ ns, g ∈ n.functions) ∨ g ∈ gs := by
    intro ns
    induction ns with
    | nil => exact .inr
    | cons n ns ih =>
      intro gs hmem
      rcases ih hmem with ⟨m, hm, hgm⟩ | hmem
      · exact .inl ⟨m, mem_cons_of_mem _ hm, hgm⟩
      · exact (Members.mem_of_foldl_set hmem).imp_left fun hn => ⟨n, mem_cons_self, hn⟩
  have hcalled : ∀ {cs : List (String × Except Error Interchange.Function)} {gs : List (String × Interchange.Function)},
      cs.foldlM (fun fs p => do return Members.set fs p.1 (← p.2)) gs = .ok fs →
      g ∈ gs ∨ ∃ c ∈ cs, c.2 = .ok g.2 := by
    intro cs
    induction cs with
    | nil =>
      intro gs h
      obtain rfl : gs = fs := Except.ok.inj h
      exact .inl hg
    | cons c cs ih =>
      intro gs h
      obtain ⟨key, r⟩ := c
      cases r with
      | error e => cases h
      | ok k =>
        rcases ih h with hmem | ⟨c, hc, hok⟩
        · rcases Members.mem_of_mem_set hmem with hmem | ⟨hk, -⟩
          · exact .inl hmem
          · exact .inr ⟨(key, .ok k), mem_cons_self, by rw [hk]⟩
        · exact .inr ⟨c, mem_cons_of_mem _ hc, hok⟩
  rcases hcalled h with hmem | hc
  · exact .inl ((hshipped hmem).resolve_right (by simp))
  · exact .inr hc

theorem Covered.functions (hf : f.Covered) (h : f.functions = .ok fs) : ∀ g ∈ fs, g.2.Covered := by
  intro g hg
  rcases mem_functions h hg with ⟨n, hn, hmem⟩ | ⟨c, hc, hok⟩
  · exact hf.shipped n hn g hmem
  · exact hf.called c hc g.2 hok

/-- What a function that is shipped adds to the imports of a model. -/
def shippedImports (g : Interchange.Function) : Imports :=
  (g.domain, 1) :: g.imports.map fun i => (i.domain, i.version)

theorem toModel_eq (h : f.toModel irVersion producer = .ok model) :
    ∃ fs, f.functions = .ok fs ∧
      model.graph = f.graph ∧ model.functions = fs.map (·.2) ∧
      model.imports = (f.imports.addAll (model.functions.flatMap shippedImports)).sorted := by
  unfold toModel at h
  obtain ⟨fs, hfs, h⟩ := bind_eq_ok.1 h
  cases h
  refine ⟨fs, hfs, rfl, rfl, ?_⟩
  change Imports.sorted _ = _
  rw [flatMap_map, ← Imports.foldl_addAll (fun g : String × Interchange.Function => shippedImports g.2)]
  rfl

/-- **Imports cover a model**: the domains of its graph and of its functions, at any depth. -/
theorem Covered.toModel (hf : f.Covered) (h : f.toModel irVersion producer = .ok model) : model.Covered := by
  obtain ⟨fs, hfs, hgraph, hfunctions, himports⟩ := toModel_eq h
  have hcovered : ∀ g ∈ model.functions, g.Covered := by
    rw [hfunctions]
    exact forall_mem_map.2 (hf.functions hfs)
  refine ⟨?_, hcovered⟩
  rw [himports]
  refine Imports.covers_sorted (Imports.nodup_addAll _ f.nodup_imports) fun d hd => ?_
  rw [Imports.mem_domains_addAll]
  rcases mem_append.1 hd with hd | hd
  · rw [hgraph, domains_graph] at hd
    exact .inl (hf.graphs.mem_imports d hd)
  · obtain ⟨g, hg, hd⟩ := mem_flatMap.1 hd
    -- a function adds its domain, and its own imports, which cover its nodes
    have hshipped : d ∈ (shippedImports g).domains := by
      rcases mem_cons.1 hd with rfl | hd
      · exact mem_cons_self
      · obtain ⟨i, hi, rfl⟩ := mem_map.1 ((hcovered g hg).mem d hd)
        exact mem_cons_of_mem _ (mem_map.2 ⟨_, mem_map_of_mem hi, rfl⟩)
    obtain ⟨i, hi, rfl⟩ := mem_map.1 hshipped
    exact .inr (mem_map_of_mem (mem_flatMap.2 ⟨g, hg, hi⟩))

end GraphFunction

end OpGraph
