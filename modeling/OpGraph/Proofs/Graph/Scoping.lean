import OpGraph.Proofs.Graph.Construction

/-!
Names that are defined once. The place that defines such a name is the only one, so what refers to it stands inside the
function that has it as a value: the names of a block or of a nested function are not used outside.
-/

namespace OpGraph.GraphFunction

open List

variable {f k p : GraphFunction} {fs : GraphFunction → Prop} {before : List GraphNode} {x : String}

/-- A part of `f` introduces a name: one of its nodes writes it, or it is an input and the part is a block. -/
def Introduces (f p : GraphFunction) (x : String) : Prop :=
  x ∈ p.assigned ∨ (∃ k ∈ f.parts, ∃ n ∈ k.nodes, p ∈ n.blocks) ∧ x ∈ p.inputNames

theorem eq_of_mem_flatMap {α β : Type} {xs : List α} {g : α → List β} (h : (xs.flatMap g).Nodup) {a b : α} {y : β}
    (ha : a ∈ xs) (hb : b ∈ xs) (hya : y ∈ g a) (hyb : y ∈ g b) : a = b := by
  by_contra hne
  have : Std.Symm (Function.onFun List.Disjoint g) := ⟨fun _ _ hd => disjoint_symm hd⟩
  exact (nodup_flatMap.1 h).2.forall ha hb hne hya hyb

section

variable {q : GraphFunction} {n m : GraphNode} (h : f.defined.Nodup)

include h

theorem nodup_defines (hp : p ∈ f.parts) (hn : n ∈ p.nodes) : n.defines.Nodup :=
  (nodup_flatMap.1 ((nodup_flatMap.1 h).1 p hp)).1 n hn

theorem eq_of_defines (hp : p ∈ f.parts) (hq : q ∈ f.parts) (hn : n ∈ p.nodes) (hm : m ∈ q.nodes)
    (hxn : x ∈ n.defines) (hxm : x ∈ m.defines) : p = q ∧ n = m := by
  have hpq : p = q := eq_of_mem_flatMap h hp hq (mem_flatMap.2 ⟨n, hn, hxn⟩) (mem_flatMap.2 ⟨m, hm, hxm⟩)
  subst hpq
  exact ⟨rfl, eq_of_mem_flatMap ((nodup_flatMap.1 h).1 p hp) hn hm hxn hxm⟩

theorem notMem_inputNames_of_assigned (hp : p ∈ f.parts) (hx : x ∈ p.assigned) (hk : k ∈ f.parts) (hn : n ∈ k.nodes)
    (hq : q ∈ n.blocks) : x ∉ q.inputNames := by
  intro hxq
  obtain ⟨m, hm, hxm⟩ := mem_flatMap.1 hx
  have hblock : x ∈ n.blocks.flatMap (·.inputNames) := mem_flatMap.2 ⟨q, hq, hxq⟩
  obtain ⟨rfl, rfl⟩ := eq_of_defines h hp hk hm hn (mem_append_left _ hxm) (mem_append_right _ hblock)
  exact (nodup_append.1 (nodup_defines h hp hm)).2.2 x hxm x hblock rfl

/-- **One part introduces the name.** -/
theorem Introduces.unique (hp : p ∈ f.parts) (hq : q ∈ f.parts) (hxp : f.Introduces p x) (hxq : f.Introduces q x) :
    p = q := by
  rcases hxp with hxp | ⟨⟨k, hk, n, hn, hpn⟩, hxp⟩
  · rcases hxq with hxq | ⟨⟨k', hk', n', hn', hqn⟩, hxq⟩
    · obtain ⟨n, hn, hxn⟩ := mem_flatMap.1 hxp
      obtain ⟨m, hm, hxm⟩ := mem_flatMap.1 hxq
      exact (eq_of_defines h hp hq hn hm (mem_append_left _ hxn) (mem_append_left _ hxm)).1
    · exact absurd hxq (notMem_inputNames_of_assigned h hp hxp hk' hn' hqn)
  · rcases hxq with hxq | ⟨⟨k', hk', n', hn', hqn⟩, hxq⟩
    · exact absurd hxp (notMem_inputNames_of_assigned h hq hxq hk hn hpn)
    · have hbp : x ∈ n.blocks.flatMap (·.inputNames) := mem_flatMap.2 ⟨p, hpn, hxp⟩
      have hbq : x ∈ n'.blocks.flatMap (·.inputNames) := mem_flatMap.2 ⟨q, hqn, hxq⟩
      obtain ⟨rfl, rfl⟩ := eq_of_defines h hk hk' hn hn' (mem_append_right _ hbp) (mem_append_right _ hbq)
      exact eq_of_mem_flatMap (nodup_append.1 (nodup_defines h hk hn)).2.1 hpn hqn hxp hxq

end

theorem Introduces.mem_defined (hp : p ∈ f.parts) (hx : f.Introduces p x) : x ∈ f.defined := by
  rcases hx with hx | ⟨⟨k, hk, n, hn, hpn⟩, hx⟩
  · obtain ⟨n, hn, hxn⟩ := mem_flatMap.1 hx
    exact mem_flatMap.2 ⟨p, hp, mem_flatMap.2 ⟨n, hn, mem_append_left _ hxn⟩⟩
  · exact mem_flatMap.2 ⟨k, hk, mem_flatMap.2 ⟨n, hn, mem_append_right _ (mem_flatMap.2 ⟨p, hpn, hx⟩)⟩⟩

theorem Resolves.exists_value (hk : k ∈ f.parts) (h : k.Resolves (f.ValueBetween k) fs) (hx : k.RefersTo x before) :
    ∃ p ∈ f.parts, k ∈ p.parts ∧ x ∈ p.values := by
  rcases h.names x before hx with hin | hout | ⟨p, hp, hpk, hxp⟩
  · exact ⟨k, hk, self_mem_parts k, mem_append_left _ hin⟩
  · refine ⟨k, hk, self_mem_parts k, mem_append_right _ ?_⟩
    obtain ⟨n, hn, hxn⟩ := mem_flatMap.1 hout
    refine mem_flatMap.2 ⟨n, ?_, hxn⟩
    rcases hx with ⟨m, after, hnodes, -⟩ | ⟨rfl, -⟩
    · rw [hnodes]
      exact mem_append_left _ hn
    · exact hn
  · exact ⟨p, hp, mem_parts.2 (.inr hpk), hxp⟩

/-- **Names stay inside**: what refers to a name that a part introduces stands in that part, unless it stands in a
nested function with a parameter of that name. -/
theorem Introduces.inside (h : f.defined.Nodup) (hinputs : ∀ y ∈ f.defined, y ∉ f.inputNames) (hp : p ∈ f.parts)
    (hxp : f.Introduces p x) (hk : k ∈ f.parts) (hres : k.Resolves (f.ValueBetween k) fs) (hx : k.RefersTo x before) :
    k ∈ p.parts ∨ ∃ j ∈ f.parts, ∃ q ∈ j.nested, k ∈ q.parts ∧ x ∈ q.inputNames := by
  obtain ⟨q, hq, hkq, hxq⟩ := hres.exists_value hk hx
  have hsame : f.Introduces q x → k ∈ p.parts := fun hi => by
    rw [Introduces.unique h hp hq hxp hi]
    exact hkq
  rcases mem_append.1 hxq with hin | hout
  · rcases parts_cases hq with rfl | hblock | ⟨j, hj, hnested⟩
    · exact absurd hin (hinputs x (hxp.mem_defined hp))
    · exact .inl (hsame (.inr ⟨hblock, hin⟩))
    · exact .inr ⟨j, hj, q, hnested, hkq, hin⟩
  · exact .inl (hsame (.inl hout))

end OpGraph.GraphFunction
