import OpGraph.Graph.Document
import OpGraph.Proofs.Document.Tree

/-!
The canonical form of a model determines the model, up to what it does not show: the sign of a zero, digits of a count
that a float does not hold, and whether a dimension is a size or a symbol that spells the size.
-/

namespace OpGraph

open Document (members_of_tree fixed_of_tree)

variable {d d' : Document} {xs ys : List ℤ} {key s : String} {α β : Type} {i j : ℤ}

/-! ### What the canonical form shows -/

/-- A dimension as it is shown: a symbol that spells an integer looks like a size. -/
def Dim.shown : Dim → Dim
  | .size n => .size n
  | .symbol s =>
    match s.toInt? with
    | some n => if toString n = s then .size n else .symbol s
    | none => .symbol s
  | .unknown => .unknown

namespace Interchange

variable {a : Attribute} {n : Node} {v v' : ValueType}

def ValueType.shown : ValueType → ValueType
  | .tensor element shape => .tensor element (shape.map (·.map Dim.shown))
  | .sequence of => .sequence of.shown
  | .optional of => .optional of.shown

def ValueInfo.shown (v : ValueInfo) : ValueInfo :=
  ⟨v.name, v.type.map ValueType.shown⟩

def TensorData.shown : TensorData → TensorData
  | .int32 xs => .int32 (xs.map Binary64.rounded)
  | .int64 xs => .int64 xs
  | .float xs => .float (xs.map Binary64.unsigned)
  | .double xs => .double (xs.map Binary64.unsigned)
  | .string xs => .string xs
  | .absent => .absent

def Tensor.shown (t : Tensor) : Tensor :=
  ⟨t.name, t.elementType, t.dims.map Binary64.rounded, t.data.shown⟩

mutual
def AttributeValue.shown : AttributeValue → AttributeValue
  | .float x => .float (Binary64.unsigned x)
  | .int i => .int i
  | .string s => .string s
  | .tensor t => .tensor t.shown
  | .graph g => .graph g.shown
  | .floats xs => .floats (xs.map Binary64.unsigned)
  | .ints xs => .ints xs
  | .strings xs => .strings xs
  | .reference name => .reference name
  | .absent => .absent
def Attribute.shown : Attribute → Attribute
  | ⟨name, type, value⟩ => ⟨name, type, value.shown⟩
def attributesShown : List Attribute → List Attribute
  | [] => []
  | a :: as => a.shown :: attributesShown as
def Node.shown : Node → Node
  | ⟨opType, domain, inputs, outputs, attributes⟩ => ⟨opType, domain, inputs, outputs, attributesShown attributes⟩
def nodesShown : List Node → List Node
  | [] => []
  | n :: ns => n.shown :: nodesShown ns
def Graph.shown : Graph → Graph
  | ⟨name, nodes, inputs, outputs, initializers, doc⟩ =>
    ⟨name, nodesShown nodes, inputs.map ValueInfo.shown, outputs.map ValueInfo.shown, initializers.map Tensor.shown, doc⟩
end

def OpsetImport.shown (i : OpsetImport) : OpsetImport :=
  ⟨i.domain, Binary64.rounded i.version⟩

def Function.shown (f : Function) : Function :=
  { f with
    defaults := attributesShown f.defaults
    nodes := nodesShown f.nodes
    imports := f.imports.map OpsetImport.shown }

/-- **A model as its canonical form shows it**: counts as floats hold them, zeros without a sign, and symbols that spell
integers as sizes. -/
def Model.shown (m : Model) : Model where
  irVersion := Binary64.rounded m.irVersion
  producer := m.producer
  imports := m.imports.map OpsetImport.shown
  graph := m.graph.shown
  functions := m.functions.map Function.shown

/-! ### Leaves -/

open Document (object array str int count number strings null tree treeItems treeMembers)

theorem str_inj {t : String} (h : (str s).tree = (str t).tree) : s = t := by
  simpa [tree] using h

theorem toString_int_inj (h : toString i = toString j) : i = j := by
  have hread := congrArg String.toInt? h
  have hrepr : ∀ k : ℤ, (toString k).toInt? = some k := Int.toInt?_repr
  rw [hrepr, hrepr] at hread
  exact Option.some.inj hread

theorem int_inj (h : (int i).tree = (int j).tree) : i = j := by
  simp only [tree, Json.string.injEq] at h
  exact toString_int_inj h

theorem count_inj {n n' : ℤ} (h : (count n).tree = (count n').tree) : Binary64.rounded n = Binary64.rounded n' := by
  simp only [tree, Json.number.injEq] at h
  exact Binary64.rounded_eq_of_unsigned h

theorem number_inj {x y : Float} (h : (number x).tree = (number y).tree) :
    Binary64.unsigned x = Binary64.unsigned y := by
  simpa [tree] using h

theorem array_inj {f : α → Document} {g : α → β} {xs ys : List α}
    (hf : ∀ x ∈ xs, ∀ y, (f x).tree = (f y).tree → g x = g y) (h : (array (xs.map f)).tree = (array (ys.map f)).tree) :
    xs.map g = ys.map g := by
  simp only [tree, Document.treeItems_eq, List.map_map, Json.array.injEq] at h
  induction xs generalizing ys with
  | nil =>
    cases ys with
    | nil => rfl
    | cons y ys => cases h
  | cons x xs ih =>
    cases ys with
    | nil => cases h
    | cons y ys =>
      obtain ⟨hxy, htail⟩ := List.cons.inj h
      rw [List.map_cons, List.map_cons, hf x List.mem_cons_self y hxy,
        ih (fun z hz => hf z (List.mem_cons_of_mem _ hz)) htail]

theorem strings_inj {xs ys : List String} (h : (strings xs).tree = (strings ys).tree) : xs = ys := by
  have := array_inj (g := id) (fun _ _ _ => str_inj) h
  simpa using this

theorem ints_inj (h : (array (xs.map int)).tree = (array (ys.map int)).tree) : xs = ys := by
  have := array_inj (g := id) (fun _ _ _ => int_inj) h
  simpa using this

theorem code_inj {e e' : ElementType} (h : (count e.code).tree = (count e'.code).tree) : e = e' := by
  have hsmall : ∀ e : ElementType, Binary64.rounded e.code = e.code := fun e =>
    Binary64.rounded_of_natAbs_lt (by cases e <;> decide)
  have hcode := count_inj h
  rw [hsmall, hsmall] at hcode
  cases e <;> cases e' <;> first | rfl | simp [ElementType.code] at hcode

theorem attributeType_inj {t t' : AttributeType} (h : (str t.name).tree = (str t'.name).tree) : t = t' := by
  have hname := str_inj h
  cases t <;> cases t' <;> first | rfl | simp [AttributeType.name] at hname

/-! ### Members -/

theorem length_optional (key : String) (d : Option Document) : (Document.optional key d).length ≤ 1 := by
  cases d <;> simp [Document.optional]

theorem nodup_keys_optional {ms : List (String × Document)} (h : (Document.keys ms ++ [key]).Nodup)
    (d : Option Document) : (Document.keys (ms ++ Document.optional key d)).Nodup := by
  refine List.Sublist.nodup ?_ h
  rw [Document.keys, Document.treeMembers_append, List.map_append]
  refine List.Sublist.append_left ?_ _
  cases d with
  | none => exact List.nil_sublist _
  | some d =>
    simp only [Document.optional, Option.map_some, Option.toList_some, treeMembers]
    split <;> simp

theorem single_inj (hd : d.isUndefined = false) (hd' : d'.isUndefined = false)
    (h : treeMembers [(key, d)] = treeMembers [(key, d')]) : d.tree = d'.tree :=
  (Document.sameValues (by simp [hd, hd']) h).1

theorem optional_inj {f : α → Document} {g : α → β} (hdef : ∀ x, (f x).isUndefined = false)
    (hf : ∀ x y, (f x).tree = (f y).tree → g x = g y) {x y : Option α}
    (h : treeMembers (Document.optional key (x.map f)) = treeMembers (Document.optional key (y.map f))) :
    x.map g = y.map g := by
  cases x <;> cases y <;> simp [Document.optional, treeMembers, hdef] at h ⊢
  exact hf _ _ h

/-! ### Types and tensors -/

theorem dim_shown {d d' : Dim} (h : (dimDocument d).tree = (dimDocument d').tree) : d.shown = d'.shown := by
  cases d with
  | size n =>
    cases d' with
    | size n' => rw [int_inj h]
    | symbol s =>
      obtain rfl : toString n = s := by simpa [dimDocument, tree] using h
      simp [Dim.shown]
    | unknown => simp [dimDocument, tree] at h
  | symbol s =>
    cases d' with
    | size n' =>
      obtain rfl : s = toString n' := by simpa [dimDocument, tree] using h
      simp [Dim.shown]
    | symbol s' => rw [str_inj h]
    | unknown => simp [dimDocument, tree] at h
  | unknown =>
    cases d' with
    | unknown => rfl
    | _ => simp [dimDocument, tree] at h

theorem dims_shown {ds ds' : List Dim} (h : (array (ds.map dimDocument)).tree = (array (ds'.map dimDocument)).tree) :
    ds.map Dim.shown = ds'.map Dim.shown :=
  array_inj (fun _ _ _ => dim_shown) h

@[simp] theorem ValueType.isUndefined_document (v : ValueType) : v.document.isUndefined = false := by
  cases v <;> rfl

def ValueType.kind : ValueType → String
  | .tensor _ _ => "tensor"
  | .sequence _ => "sequence"
  | .optional _ => "optional"

theorem ValueType.document_eq (v : ValueType) : ∃ ms, v.document = object ms ∧ (Document.keys ms).Nodup ∧
    ("kind", Json.string v.kind) ∈ treeMembers ms := by
  have hkind : ∀ {k ms}, ("kind", Json.string k) ∈ treeMembers (("kind", str k) :: ms) := by
    intro k ms
    rw [Document.treeMembers_cons rfl]
    exact List.mem_cons_self
  cases v with
  | tensor e s => exact ⟨_, rfl, nodup_keys_optional (by simp) _, hkind⟩
  | sequence of | optional of => exact ⟨_, rfl, by simp, hkind⟩

theorem valueType_kind (h : v.document.tree = v'.document.tree) : v.kind = v'.kind := by
  obtain ⟨ms, hv, -, hkind⟩ := v.document_eq
  obtain ⟨ms', hv', hnodup, hkind'⟩ := v'.document_eq
  rw [hv, hv'] at h
  exact Json.string.inj (Document.value_of_tree h hnodup hkind hkind')

theorem element_of_tree {k : String}
    (h : (object [("kind", str k), ("elem", v.document)]).tree = (object [("kind", str k), ("elem", v'.document)]).tree) :
    v.document.tree = v'.document.tree := by
  exact (fixed_of_tree h (by simp) (by simp) (by simp)).2.1

theorem valueType_shown (h : v.document.tree = v'.document.tree) : v.shown = v'.shown := by
  have hkind := valueType_kind h
  induction v generalizing v' with
  | tensor e s =>
    cases v' with
    | tensor e' s' =>
      rw [ValueType.document, ValueType.document] at h
      obtain ⟨hfixed, hshape⟩ := members_of_tree h (by simp) (by simp) (nodup_keys_optional (by simp) _)
        (length_optional _ _)
      rw [ValueType.shown, ValueType.shown, code_inj hfixed.2.1, optional_inj (fun _ => rfl) (fun _ _ => dims_shown)
        hshape]
    | _ => simp [ValueType.kind] at hkind
  | sequence of ih =>
    cases v' with
    | sequence of' =>
      have helem := element_of_tree h
      rw [ValueType.shown, ValueType.shown, ih helem (valueType_kind helem)]
    | _ => simp [ValueType.kind] at hkind
  | optional of ih =>
    cases v' with
    | optional of' =>
      have helem := element_of_tree h
      rw [ValueType.shown, ValueType.shown, ih helem (valueType_kind helem)]
    | _ => simp [ValueType.kind] at hkind

theorem valueInfo_shown {v v' : ValueInfo} (h : v.document.tree = v'.document.tree) : v.shown = v'.shown := by
  rw [ValueInfo.document, ValueInfo.document] at h
  obtain ⟨hfixed, htype⟩ := members_of_tree h (by simp) (by simp) (nodup_keys_optional (by simp) _) (length_optional _ _)
  rw [ValueInfo.shown, ValueInfo.shown, str_inj hfixed.1,
    optional_inj ValueType.isUndefined_document (fun _ _ => valueType_shown) htype]

theorem counts_shown (h : (array (xs.map count)).tree = (array (ys.map count)).tree) :
    xs.map Binary64.rounded = ys.map Binary64.rounded :=
  array_inj (fun _ _ _ => count_inj) h

theorem numbers_shown {xs ys : List Float} (h : (array (xs.map number)).tree = (array (ys.map number)).tree) :
    xs.map Binary64.unsigned = ys.map Binary64.unsigned :=
  array_inj (fun _ _ _ => number_inj) h

theorem TensorData.length_members (t : TensorData) : t.members.length ≤ 1 := by
  cases t <;> simp [members]

theorem tensorData_shown {t t' : TensorData} (h : treeMembers t.members = treeMembers t'.members) :
    t.shown = t'.shown := by
  -- what is of another kind has another key
  cases t <;> cases t' <;> try (simp [TensorData.members, Document.treeMembers_cons] at h; done)
  case int32.int32 => rw [TensorData.shown, TensorData.shown, counts_shown (single_inj rfl rfl h)]
  case int64.int64 => rw [ints_inj (single_inj rfl rfl h)]
  case float.float => rw [TensorData.shown, TensorData.shown, numbers_shown (single_inj rfl rfl h)]
  case double.double => rw [TensorData.shown, TensorData.shown, numbers_shown (single_inj rfl rfl h)]
  case string.string => rw [strings_inj (single_inj rfl rfl h)]
  case absent.absent => rfl

@[simp] theorem Tensor.isUndefined_document (t : Tensor) : t.document.isUndefined = false := by rfl

theorem tensor_shown {t t' : Tensor} (h : t.document.tree = t'.document.tree) : t.shown = t'.shown := by
  rw [Tensor.document, Tensor.document] at h
  have hnodup : (Document.keys ([("name", str t'.name), ("dataType", count t'.elementType.code),
      ("dims", array (t'.dims.map count))] ++ t'.data.members)).Nodup := by
    cases t'.data <;> simp [TensorData.members]
  obtain ⟨⟨hname, htype, hdims, -⟩, hdata⟩ := members_of_tree h (by simp) (by simp) hnodup t.data.length_members
  rw [Tensor.shown, Tensor.shown, str_inj hname, code_inj htype, counts_shown hdims, tensorData_shown hdata]

/-! ### Nodes and graphs -/

theorem attributesShown_eq (as : List Attribute) : attributesShown as = as.map Attribute.shown := by
  induction as with
  | nil => rfl
  | cons a as ih => rw [attributesShown, ih, List.map_cons]

theorem nodesShown_eq (ns : List Node) : nodesShown ns = ns.map Node.shown := by
  induction ns with
  | nil => rfl
  | cons n ns ih => rw [nodesShown, ih, List.map_cons]

theorem attributeDocuments_eq (as : List Attribute) : attributeDocuments as = as.map Attribute.document := by
  induction as with
  | nil => rfl
  | cons a as ih => rw [attributeDocuments, ih, List.map_cons]

theorem nodeDocuments_eq (ns : List Node) : nodeDocuments ns = ns.map Node.document := by
  induction ns with
  | nil => rfl
  | cons n ns ih => rw [nodeDocuments, ih, List.map_cons]

@[simp] theorem Graph.isUndefined_document (g : Graph) : g.document.isUndefined = false := by
  cases g
  rfl

/-- Graphs that show the same value as a graph are shown alike. -/
def Graph.Determined (g : Graph) : Prop :=
  ∀ {g' : Graph}, g.document.tree = g'.document.tree → g.shown = g'.shown

theorem AttributeValue.length_members (v : AttributeValue) : v.members.length ≤ 1 := by
  cases v <;> simp [members]

theorem attributeValue_shown {v v' : AttributeValue} (ih : ∀ g, v = .graph g → g.Determined)
    (h : treeMembers v.members = treeMembers v'.members) : v.shown = v'.shown := by
  -- what is of another kind has another key
  cases v <;> cases v' <;> try (simp [AttributeValue.members, Document.treeMembers_cons] at h; done)
  case float.float => rw [AttributeValue.shown, AttributeValue.shown, number_inj (single_inj rfl rfl h)]
  case int.int => rw [int_inj (single_inj rfl rfl h)]
  case string.string => rw [str_inj (single_inj rfl rfl h)]
  case tensor.tensor => rw [AttributeValue.shown, AttributeValue.shown, tensor_shown (single_inj rfl rfl h)]
  case graph.graph g g' =>
    rw [AttributeValue.shown, AttributeValue.shown, ih g rfl
      (single_inj g.isUndefined_document g'.isUndefined_document h)]
  case floats.floats => rw [AttributeValue.shown, AttributeValue.shown, numbers_shown (single_inj rfl rfl h)]
  case ints.ints => rw [ints_inj (single_inj rfl rfl h)]
  case strings.strings => rw [strings_inj (single_inj rfl rfl h)]
  case reference.reference => rw [str_inj (single_inj rfl rfl h)]
  case absent.absent => rfl

theorem attribute_shown {a' : Attribute} (ih : ∀ g, a.value = .graph g → g.Determined)
    (h : a.document.tree = a'.document.tree) : a.shown = a'.shown := by
  obtain ⟨name, type, value⟩ := a
  obtain ⟨name', type', value'⟩ := a'
  rw [Attribute.document, Attribute.document] at h
  have hnodup : (Document.keys ([("name", str name'), ("type", str type'.name)] ++ value'.members)).Nodup := by
    cases value' <;> simp [AttributeValue.members]
  obtain ⟨hfixed, hvalue⟩ := members_of_tree h (by simp) (by simp) hnodup value.length_members
  rw [Attribute.shown, Attribute.shown, str_inj hfixed.1, attributeType_inj hfixed.2.1, attributeValue_shown ih hvalue]

theorem attributes_shown {as as' : List Attribute} (ih : ∀ a ∈ as, ∀ g, a.value = .graph g → g.Determined)
    (h : (array (attributeDocuments as)).tree = (array (attributeDocuments as')).tree) :
    attributesShown as = attributesShown as' := by
  rw [attributeDocuments_eq, attributeDocuments_eq] at h
  rw [attributesShown_eq, attributesShown_eq]
  exact array_inj (fun a ha _ => attribute_shown (ih a ha)) h

theorem node_shown {n' : Node} (ih : ∀ a ∈ n.attributes, ∀ g, a.value = .graph g → g.Determined)
    (h : n.document.tree = n'.document.tree) : n.shown = n'.shown := by
  obtain ⟨opType, domain, inputs, outputs, attributes⟩ := n
  obtain ⟨opType', domain', inputs', outputs', attributes'⟩ := n'
  rw [Node.document, Node.document] at h
  obtain ⟨hop, hdomain, hin, hout, hattributes, -⟩ := fixed_of_tree h (by simp) (by simp) (by simp)
  rw [Node.shown, Node.shown, str_inj hop, str_inj hdomain, strings_inj hin, strings_inj hout,
    attributes_shown ih hattributes]

theorem nodes_shown {ns ns' : List Node}
    (ih : ∀ n ∈ ns, ∀ a ∈ n.attributes, ∀ g, a.value = .graph g → g.Determined)
    (h : (array (nodeDocuments ns)).tree = (array (nodeDocuments ns')).tree) : nodesShown ns = nodesShown ns' := by
  rw [nodeDocuments_eq, nodeDocuments_eq] at h
  rw [nodesShown_eq, nodesShown_eq]
  exact array_inj (fun n hn _ => node_shown (ih n hn)) h

theorem valueInfos_shown {vs vs' : List ValueInfo}
    (h : (array (vs.map ValueInfo.document)).tree = (array (vs'.map ValueInfo.document)).tree) :
    vs.map ValueInfo.shown = vs'.map ValueInfo.shown :=
  array_inj (fun _ _ _ => valueInfo_shown) h

theorem doc_inj {doc doc' : Option String}
    (h : treeMembers (Document.optional "docString" (doc.map str)) =
      treeMembers (Document.optional "docString" (doc'.map str))) : doc = doc' := by
  have hdoc := optional_inj (g := id) (fun _ => rfl) (fun _ _ => str_inj) h
  simpa using hdoc

theorem Graph.sizeOf_attribute_lt {g g' : Graph} (hn : n ∈ g.nodes) (ha : a ∈ n.attributes) (hg : a.value = .graph g') :
    sizeOf g' < sizeOf g := by
  obtain ⟨_, nodes, _, _, _, _⟩ := g
  obtain ⟨_, _, _, _, attributes⟩ := n
  obtain ⟨_, _, value⟩ := a
  obtain rfl : value = .graph g' := hg
  have h1 := List.sizeOf_lt_of_mem hn
  have h2 := List.sizeOf_lt_of_mem ha
  simp only [mk.sizeOf_spec, Node.mk.sizeOf_spec, Attribute.mk.sizeOf_spec, AttributeValue.graph.sizeOf_spec] at h1 h2 ⊢
  omega

/-- The induction is on the size of the graph, as its attributes hold smaller ones. -/
theorem Graph.determined (g : Graph) : g.Determined := by
  intro g' h
  have ih : ∀ n ∈ g.nodes, ∀ a ∈ n.attributes, ∀ g', a.value = .graph g' → g'.Determined := fun n hn a ha g' hg =>
    have := sizeOf_attribute_lt hn ha hg
    g'.determined
  obtain ⟨name, nodes, inputs, outputs, initializers, doc⟩ := g
  obtain ⟨name', nodes', inputs', outputs', initializers', doc'⟩ := g'
  rw [Graph.document, Graph.document] at h
  obtain ⟨⟨hname, hnodes, hin, hout, hinit, -⟩, hdoc⟩ :=
    members_of_tree h (by simp) (by simp) (nodup_keys_optional (by simp) _) (length_optional _ _)
  rw [Graph.shown, Graph.shown, str_inj hname, nodes_shown ih hnodes, valueInfos_shown hin, valueInfos_shown hout,
    array_inj (fun _ _ _ => tensor_shown) hinit, doc_inj hdoc]
termination_by sizeOf g

/-! ### Functions and models -/

theorem imports_shown {is is' : List OpsetImport}
    (h : (array (is.map OpsetImport.document)).tree = (array (is'.map OpsetImport.document)).tree) :
    is.map OpsetImport.shown = is'.map OpsetImport.shown := by
  refine array_inj (fun i _ i' h => ?_) h
  have hmembers := fixed_of_tree h (by simp) (by simp) (by simp)
  rw [OpsetImport.shown, OpsetImport.shown, str_inj hmembers.1, count_inj hmembers.2.1]

theorem function_shown {f f' : Function} (h : f.document.tree = f'.document.tree) : f.shown = f'.shown := by
  rw [Function.document, Function.document] at h
  obtain ⟨⟨hname, hdomain, hin, hout, hattributes, hdefaults, hnodes, himports, -⟩, hdoc⟩ :=
    members_of_tree h (by simp) (by simp) (nodup_keys_optional (by simp) _) (length_optional _ _)
  have hdefaults := attributes_shown (fun _ _ g _ => g.determined) hdefaults
  have hnodes := nodes_shown (fun _ _ _ _ g _ => g.determined) hnodes
  obtain ⟨name, domain, inputs, outputs, attributes, defaults, nodes, imports, doc⟩ := f
  obtain ⟨name', domain', inputs', outputs', attributes', defaults', nodes', imports', doc'⟩ := f'
  simp only [Function.shown, Function.mk.injEq]
  exact ⟨str_inj hname, str_inj hdomain, strings_inj hin, strings_inj hout, strings_inj hattributes, hdefaults, hnodes,
    imports_shown himports, doc_inj hdoc⟩

theorem model_shown {m m' : Model} (h : m.document.tree = m'.document.tree) : m.shown = m'.shown := by
  rw [Model.document, Model.document] at h
  obtain ⟨hversion, hproducer, himports, hgraph, hfunctions, -⟩ := fixed_of_tree h (by simp) (by simp) (by simp)
  rw [Model.shown, Model.shown, count_inj hversion, str_inj hproducer, imports_shown himports,
    m.graph.determined hgraph, array_inj (fun _ _ _ => function_shown) hfunctions]

theorem hex_of_digest {s' : String} (h : d.canonical = .ok s) (h' : d'.canonical = .ok s')
    (hdigest : d.digest = d'.digest) : Sha256.hex s = Sha256.hex s' := by
  rw [Document.digest, Document.digest, h, h'] at hdigest
  have happend := congrArg String.toList (Except.ok.inj hdigest)
  rw [String.toList_append, String.toList_append] at happend
  exact String.toList_inj.1 (List.append_cancel_left happend)

/-- **The canonical form identifies the model**, as far as it is shown: models with the same canonical text are the same
but for signs of zeros, digits of counts that floats do not hold, and symbols that spell integers, which are taken for
sizes. So are models with the same digest, unless the hashes of the very two texts collide. -/
theorem canonical_identifies_model {m m' : Model} {s s' : String} (h : m.document.canonical = .ok s)
    (h' : m'.document.canonical = .ok s') :
    (s = s' → m.shown = m'.shown) ∧
      ((Sha256.hex s = Sha256.hex s' → s = s') → m.document.digest = m'.document.digest → m.shown = m'.shown) := by
  have hsame : s = s' → m.shown = m'.shown := fun hs => model_shown ((Document.canonical_eq_iff h h').1 hs)
  exact ⟨hsame, fun hfree hdigest => hsame (hfree (hex_of_digest h h' hdigest))⟩

/-- A model with a constant in a nested graph and an input of one dimension. -/
def sampleModel (d : Dim) (x : Float) : Model where
  irVersion := 8
  producer := "graphscript"
  imports := [⟨"", 15⟩]
  graph :=
    let constant : Node := ⟨"Constant", "", [], ["y"], [⟨"value", .tensor, .tensor ⟨"y", .double, [1], .double [x]⟩⟩]⟩
    let branch : Graph := ⟨"branch", [constant], [], [⟨"y", none⟩], [], none⟩
    ⟨"f", [⟨"If", "", ["c"], ["z"], [⟨"then_branch", .graph, .graph branch⟩]⟩],
      [⟨"c", some (.tensor .bool (some [d]))⟩], [⟨"z", none⟩], [], none⟩
  functions := []

theorem canonical_sampleModel : ∀ d ∈ [Dim.size 3, .symbol "3"], ∀ x ∈ [(1.5 : Float), 2.5],
    ∃ s, (sampleModel d x).document.canonical = .ok s := by
  have hfinite : ∀ d ∈ [Dim.size 3, .symbol "3"], ∀ x ∈ [(1.5 : Float), 2.5],
      (sampleModel d x).document.isFinite = true := by decide +kernel
  exact fun d hd x hx => ⟨_, Document.canonical_of_isFinite (hfinite d hd x hx)⟩

theorem canonical_identifies_model_sample :
    ∃ s s', (sampleModel (.size 3) 1.5).document.canonical = .ok s ∧
      (sampleModel (.size 3) 2.5).document.canonical = .ok s' ∧ s ≠ s' ∧
      ((Sha256.hex s = Sha256.hex s' → s = s') →
        (sampleModel (.size 3) 1.5).document.digest ≠ (sampleModel (.size 3) 2.5).document.digest) := by
  have hshown : (sampleModel (.size 3) 1.5).shown ≠ (sampleModel (.size 3) 2.5).shown := by
    have hfloat : Binary64.unsigned 1.5 ≠ Binary64.unsigned 2.5 := by decide +kernel
    simpa [sampleModel, Model.shown, Graph.shown, nodesShown, Node.shown, attributesShown, Attribute.shown,
      AttributeValue.shown, Tensor.shown, TensorData.shown] using hfloat
  obtain ⟨s, h⟩ := canonical_sampleModel (.size 3) (by simp) 1.5 (by simp)
  obtain ⟨s', h'⟩ := canonical_sampleModel (.size 3) (by simp) 2.5 (by simp)
  obtain ⟨htext, hdigest⟩ := canonical_identifies_model h h'
  exact ⟨s, s', h, h', fun hs => hshown (htext hs), fun hfree hd => hshown (hdigest hfree hd)⟩

/-- A size and the symbol that spells it have the same canonical text, and so the same digest. -/
theorem size_and_symbol_share_text : ¬∀ (m m' : Model) (s : String), m.document.canonical = .ok s →
    m'.document.canonical = .ok s → m = m' := by
  intro hall
  obtain ⟨s, h⟩ := canonical_sampleModel (.size 3) (by simp) 1.5 (by simp)
  obtain ⟨s', h'⟩ := canonical_sampleModel (.symbol "3") (by simp) 1.5 (by simp)
  have htree : (sampleModel (.size 3) 1.5).document.tree = (sampleModel (.symbol "3") 1.5).document.tree := by
    rfl
  obtain rfl := (Document.canonical_eq_iff h h').2 htree
  have := hall _ _ s h h'
  simp [sampleModel] at this

end Interchange

end OpGraph
