import OpGraph.Proofs.Compilation
import OpGraph.Proofs.Assertions.Statements
import OpGraph.Proofs.Graph.Imports

/-!
Versions of the default domain in a compiled function. Operators that are taken from an operator set are checked against
the default one, and so is every operator that the lowering inserts itself. Operators that names of the module stand for
are not: a script that binds one to a name can mix versions.
-/

namespace OpGraph

open List Lowering

variable {t : Compiler} {f : GraphFunction} {c : Option Opset} {stmt : Stmt Unit}

open GraphFunction (forall_parts_iff)

namespace Compiler

/-! ### Operators and their versions -/

/-- Operators that a function can have without a check of their version: those that names of the module stand for, those
of the functions that names stand for, and those of the functions of the module itself. -/
inductive Unchecked (t : Compiler) : OpName → Prop where
  | bound (name : String) (ref : Ref) (o : Op) (value : Members.get? t.globals name = some (.op ref o)) :
    Unchecked t (opName o)
  | called (name : String) (ref : Ref) (g : ScriptFunction)
    (value : Members.get? t.globals name = some (.function ref g)) : Unchecked t g.op
  | module (name : String) : Unchecked t ⟨t.module.domain, t.module.version, name⟩

/-- An operator of the default domain is of the version of the default set, or it is not checked. -/
def Allowed (t : Compiler) (c : Option Opset) (n : OpName) : Prop :=
  n.domain = "" → (∃ o ∈ c, n.version = o.version) ∨ t.Unchecked n

/-- The nodes of a function, and the imports of their graph attributes, which cover the graphs, are of versions that are
allowed. -/
def AllowedNodes (t : Compiler) (c : Option Opset) (f : GraphFunction) : Prop :=
  ∀ n ∈ f.nodes, t.Allowed c n.op ∧
    ∀ a ∈ n.attributes, a.Covered ∧ ∀ i ∈ a.imports, ∃ name, t.Allowed c ⟨i.1, i.2, name⟩

theorem AllowedNodes.coversGraphs (h : t.AllowedNodes c f) : f.CoversGraphs :=
  fun n hn a ha => ((h n hn).2 a ha).1

theorem AllowedNodes.imports (h : t.AllowedNodes c f) : ∀ i ∈ f.imports, ∃ name, t.Allowed c ⟨i.1, i.2, name⟩ := by
  intro i hi
  rw [GraphFunction.imports_eq] at hi
  obtain ⟨n, hn, hi⟩ := mem_flatMap.1 ((Imports.mem_addAll hi).resolve_left not_mem_nil)
  rcases mem_cons.1 hi with rfl | hi
  · exact ⟨n.op.name, (h n hn).1⟩
  · obtain ⟨a, ha, hi⟩ := mem_flatMap.1 hi
    exact ((h n hn).2 a ha).2 i hi

def versionKinds (t : Compiler) (c : Option Opset) : Kinds where
  Op := t.Allowed c
  Fn := fun f => ∀ p ∈ f.parts, t.AllowedNodes c p
  Script := fun g => ∃ name ref, Members.get? t.globals name = some (.function ref g)

theorem lawful_versionKinds (t : Compiler) (c : Option Opset) (fn : FunctionDef Unit) :
    (t.versionKinds c).Lawful (t.start fn).1 where
  other := fun _ hother hd => absurd hd hother
  module := fun name _ => .inr (.module name)
  script := fun g ⟨name, ref, hg⟩ _ => .inr (.called name ref g hg)
  globals := by
    intro name v hv
    cases v with
    | function ref g => exact ⟨name, ref, hv⟩
    | op ref o => exact fun _ => .inr (.bound name ref o hv)
    | _ => trivial
  start := fun name domain => forall_parts_iff.2 ⟨fun _ => nofun, nofun, nofun⟩
  congr := by
    intro f g hf hn _ hs
    obtain ⟨hself, hblocks, hnested⟩ := forall_parts_iff.1 hf
    refine forall_parts_iff.2 ⟨?_, hn ▸ hblocks, hs ▸ hnested⟩
    unfold AllowedNodes
    rwa [hn]
  addNode := by
    intro f n hf hn
    obtain ⟨hself, hblocks, hnested⟩ := forall_parts_iff.1 hf
    refine forall_parts_iff.2 ⟨?_, ?_, hnested⟩
    · refine forall_mem_append.2 ⟨hself, forall_mem_singleton.2 ⟨hn.op, fun a ha => ?_⟩⟩
      cases hn.attributes a ha with
      | plain himports hvalue =>
        refine ⟨NodeAttribute.covered_of_plain hvalue, ?_⟩
        rw [himports]
        exact fun _ => nofun
      | graph q hq name hform =>
        have hq' := hq q (GraphFunction.self_mem_parts q)
        refine ⟨hq'.coversGraphs.toAttribute hform, ?_⟩
        rw [GraphFunction.imports_toAttribute hform]
        exact hq'.imports
    · exact forall_mem_append.2 ⟨hblocks, forall_mem_singleton.2 hn.blocks⟩
  addCalled := by
    intro f g hf _
    obtain ⟨hself, hblocks, hnested⟩ := forall_parts_iff.1 hf
    exact forall_parts_iff.2 ⟨hself, hblocks, hnested⟩
  addNested := by
    intro f g hf hg
    obtain ⟨hself, hblocks, hnested⟩ := forall_parts_iff.1 hf
    refine forall_parts_iff.2 ⟨hself, hblocks, ?_⟩
    exact forall_mem_append.2 ⟨hnested, forall_mem_singleton.2 hg⟩

/-- The operators of the default domain in a compiled function, and in all functions inside it, are of the version of
the default set that is left, unless they are not checked. -/
theorem allowed_compile {f : ScriptFunction} (h : (t.compile stmt).1 = .ok f) :
    ∀ p ∈ f.fn.parts, t.AllowedNodes (t.compile stmt).2.defaultOpset p :=
  kinds_compile (K := t.versionKinds (t.compile stmt).2.defaultOpset) (t.lawful_versionKinds _) h
    fun o ho _ _ => .inl ⟨o, ho, rfl⟩

theorem version_of_imports {f : ScriptFunction} (h : (t.compile stmt).1 = .ok f)
    (hx : ∀ n, t.Unchecked n → n.domain ≠ "") {p : GraphFunction} (hp : p ∈ f.fn.parts)
    (hd : "" ∈ Interchange.nodeDomains (p.nodes.map GraphNode.node)) :
    ∃ o, (t.compile stmt).2.defaultOpset = some o ∧ ∀ v, ("", v) ∈ p.imports ↔ v = o.version := by
  have hallowed := allowed_compile h p hp
  have hversion : ∀ v, ("", v) ∈ p.imports → ∃ o, (t.compile stmt).2.defaultOpset = some o ∧ v = o.version := by
    intro v hv
    obtain ⟨name, hname⟩ := hallowed.imports _ hv
    exact (hname rfl).resolve_right fun hn => hx _ hn rfl
  obtain ⟨⟨d, w⟩, hw, rfl⟩ := mem_map.1 (hallowed.coversGraphs.mem_imports "" hd)
  obtain ⟨o, ho, rfl⟩ := hversion w hw
  refine ⟨o, ho, fun v => ⟨fun hv => ?_, fun hv => hv ▸ hw⟩⟩
  exact Imports.version_unique p.nodup_imports hv hw

theorem outcome_calleeOf_other {env : Env} {s : State} {c o : Opset} {pos : Position} {e : Expr} {name : String}
    (hc : s.defaultOpset = some c) (he : Returns (opsetOf e) env s o s) (ho : o.isDefaultDomain)
    (hv : c.version ≠ o.version) :
    outcome (calleeOf (.attr pos e name)) env s = (.error ⟨.lowering (.twoOpsets o.text c.text), none⟩, s) := by
  have huse : outcome (useOpset o) env s = (.error ⟨.lowering (.twoOpsets o.text c.text), none⟩, s) := by
    unfold useOpset
    rw [if_pos ho]
    rw [outcome_get_bind, hc]
    dsimp only
    rw [if_pos (.inr hv)]
    rfl
  have he : outcome (opsetOf e) env s = (.ok o, s) := he
  unfold calleeOf
  rw [outcome_bind, he]
  dsimp only
  rw [outcome_bind, huse]

/-- **One version of the default domain**: if no operator of the default domain is bound to a name of the module, and
neither the module nor a function that a name stands for is in the default domain, then all nodes of the default domain
in a compiled function, in its nested functions and in its control-flow graphs are of the version of the default set
that is left. That is the only version that the imports of the function around the node, and those of the model, give
for the default domain. A call that takes an operator from a set of the default domain of another version than that of
the default set is an error of configuration. -/
theorem one_default_version {t : Compiler} {stmt : Stmt Unit} {f : ScriptFunction} (h : (t.compile stmt).1 = .ok f)
    (hx : ∀ n, t.Unchecked n → n.domain ≠ "") :
    (∀ p ∈ f.fn.parts, ∀ n ∈ p.nodes, n.op.domain = "" → ∃ o, (t.compile stmt).2.defaultOpset = some o ∧
        n.op.version = o.version ∧ ∀ v, ("", v) ∈ p.imports ↔ v = o.version) ∧
      (∀ irVersion producer model, f.fn.toModel irVersion producer = .ok model → "" ∈ model.graph.domains →
        ∃ o, (t.compile stmt).2.defaultOpset = some o ∧ ∀ v, ⟨"", v⟩ ∈ model.imports ↔ v = o.version) ∧
      ∀ (env : Env) (s : State) (c o : Opset) (pos : Position) (e : Expr) (name : String), s.defaultOpset = some c →
        Returns (opsetOf e) env s o s → o.isDefaultDomain → c.version ≠ o.version →
        outcome (calleeOf (.attr pos e name)) env s = (.error ⟨.lowering (.twoOpsets o.text c.text), none⟩, s) ∧
          (Fault.lowering (.twoOpsets o.text c.text)).code = some .configurationError := by
  refine ⟨?_, ?_, ?_⟩
  · intro p hp n hn hd
    obtain ⟨o, ho, hv⟩ := (((allowed_compile h p hp) n hn).1 hd).resolve_right fun hu => hx _ hu hd
    have hdomain : "" ∈ Interchange.nodeDomains (p.nodes.map GraphNode.node) := by
      rw [Interchange.nodeDomains_eq]
      refine List.mem_flatMap.2 ⟨n.node, List.mem_map_of_mem hn, ?_⟩
      rw [Interchange.Node.domains_eq, ← hd]
      exact List.mem_cons_self
    obtain ⟨o', ho', himports⟩ := version_of_imports h hx hp hdomain
    obtain rfl := Option.some.inj (ho.symm.trans ho')
    exact ⟨o, ho, hv, himports⟩
  · intro irVersion producer model hmodel hdomain
    obtain ⟨fs, -, hgraph, -, himports⟩ := GraphFunction.toModel_eq hmodel
    rw [hgraph, GraphFunction.domains_graph] at hdomain
    obtain ⟨o, ho, hown⟩ := version_of_imports h hx (GraphFunction.self_mem_parts f.fn) hdomain
    refine ⟨o, ho, fun v => ?_⟩
    rw [himports, Imports.mem_sorted]
    -- what the function itself imports comes first, so functions that are shipped cannot change it
    have hfirst := Imports.mem_addAll_left (model.functions.flatMap GraphFunction.shippedImports) ((hown _).2 rfl)
    constructor
    · exact fun hv => Imports.version_unique (Imports.nodup_addAll _ f.fn.nodup_imports) hv hfirst
    · rintro rfl
      exact hfirst
  · intro env s c o pos e name hc he ho hv
    exact ⟨outcome_calleeOf_other hc he ho hv, rfl⟩

/-- A module in which a name stands for an operator of another version. -/
def mixedModule : Compiler where
  globals := [("op", .opset none { domain := "", version := 15, registry := {} }),
    ("myabs", .op none ⟨"", 18, "Abs", none⟩)]
  module := { domain := "this", version := 1, registry := {} }

/-- A function that calls an operator of the default set, and one that a name stands for. -/
def mixedSource : String :=
  "def f(x):\n" ++
  "    y = op.Neg(x)\n" ++
  "    return myabs(y)\n"

/-- An operator that a name stands for is not checked, so that versions can be mixed. -/
theorem bound_operator_mixes_versions : ¬ ∀ (t : Compiler) (stmt : Stmt Unit) (f : ScriptFunction),
    (t.compile stmt).1 = .ok f → ∀ n ∈ f.fn.nodes, ∀ m ∈ f.fn.nodes, n.op.domain = "" → m.op.domain = "" →
      n.op.version = m.op.version := by
  intro hall
  obtain ⟨stmt, f, -, h, n, hn, m, hm, hnd, hmd, hne⟩ := exists_of_compileOnly mixedModule mixedSource
    (fun f => ∃ n ∈ f.fn.nodes, ∃ m ∈ f.fn.nodes, n.op.domain = "" ∧ m.op.domain = "" ∧ n.op.version ≠ m.op.version)
    (by decide +kernel)
  exact hne (hall _ stmt f h n hn m hm hnd hmd)

theorem one_default_version_sample : ∃ stmt f o, Syntax.parseScript sampleSource = .ok [stmt] ∧
    (sampleModule.compile stmt).1 = .ok f ∧ f.fn.parts.length = 5 ∧
    (sampleModule.compile stmt).2.defaultOpset = some o ∧ (∃ p ∈ f.fn.parts, ∃ n ∈ p.nodes, n.op.domain = "") ∧
    ∀ p ∈ f.fn.parts, ∀ n ∈ p.nodes, n.op.domain = "" → n.op.version = o.version := by
  obtain ⟨stmt, f, hparse, h, hparts, p, hp, n, hn, hd⟩ := exists_of_compileOnly sampleModule sampleSource
    (fun f => f.fn.parts.length = 5 ∧ ∃ p ∈ f.fn.parts, ∃ n ∈ p.nodes, n.op.domain = "") (by decide +kernel)
  have hx : ∀ n, sampleModule.Unchecked n → n.domain ≠ "" := by
    intro n hn
    cases hn with
    | bound name ref o value | called name ref g value => simpa [sampleModule] using Members.mem_of_get? value
    | module name => exact (by decide : "this" ≠ "")
  obtain ⟨hnodes, -, -⟩ := one_default_version h hx
  obtain ⟨o, ho, -, -⟩ := hnodes p hp n hn hd
  refine ⟨stmt, f, o, hparse, h, hparts, ho, ⟨p, hp, n, hn, hd⟩, fun p hp n hn hd => ?_⟩
  obtain ⟨o', ho', hv, -⟩ := hnodes p hp n hn hd
  rwa [← Option.some.inj (ho.symm.trans ho')] at hv

end Compiler

end OpGraph
