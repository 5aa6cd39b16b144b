import OpGraph.Proofs.Analysis.Liveness
import OpGraph.Proofs.Semantics.Script

/-!
What statements leave alone. A statement changes the values of the names that it assigns and of no others. One that is
always left to what follows it keeps alive what is live after it and not assigned by it.
-/

namespace OpGraph

open List

variable {V ν : Type}

/-! ### Variables -/

/-- The names outside a list have the same values as before. -/
def Completion.Keeps (names : List String) (σ : Values V) : Completion V → Prop
  | .next σ' | .brk σ' => ∀ x ∉ names, σ' x = σ x
  | .ret _ => True

namespace Completion

variable {names names' : List String} {σ σ₁ : Values V} {d : Completion V}

theorem Keeps.mono (h : d.Keeps names σ) (hn : ∀ x ∈ names, x ∈ names') : d.Keeps names' σ := by
  cases d with
  | next σ' | brk σ' => exact fun x hx => h x fun hm => hx (hn x hm)
  | ret vs => trivial

theorem Keeps.trans (hσ : ∀ x ∉ names, σ₁ x = σ x) (h : d.Keeps names σ₁) : d.Keeps names σ := by
  cases d with
  | next σ' | brk σ' => exact fun x hx => (h x hx).trans (hσ x hx)
  | ret vs => trivial

end Completion

namespace Interpretation

variable {I : Interpretation V} {c : Setting} {fuel : ℕ}

theorem targetNames?_targets {ts : List Expr} {ids : List String} (h : targetNames? ts = some ids) :
    Expr.targetsAll ts = ids := by
  induction ts generalizing ids with
  | nil =>
    cases h
    rfl
  | cons t ts ih =>
    rw [targetNames?, mapM_cons] at h
    simp only [Option.bind_eq_bind, Option.bind_eq_some_iff, Option.pure_def, Option.some.injEq] at h
    obtain ⟨id, ht, rest, hrest, rfl⟩ := h
    split at ht
    · cases ht
      rw [Expr.targetsAll, ih hrest]
      rfl
    · cases ht

theorem keeps_assign {target value : Expr} {σ σ' : Values V} (h : I.assign c σ target value = .ok σ') :
    ∀ x ∉ target.targets, σ' x = σ x := by
  intro x hx
  unfold assign at h
  split at h
  · obtain ⟨v, -, rfl⟩ := map_eq_ok.1 h
    exact Values.set_of_ne (by simpa [Expr.targets] using hx)
  · rename_i ts _ func args keywords
    obtain ⟨ids, hids, h⟩ := bind_eq_ok.1 h
    obtain ⟨vs, -, h⟩ := bind_eq_ok.1 h
    refine Values.setAll_other h ?_
    cases ht : targetNames? ts with
    | none =>
      rw [ht] at hids
      cases hids
    | some ids' =>
      rw [ht] at hids
      cases hids
      rw [← targetNames?_targets ht]
      exact hx
  · cases h

section Rounds

variable {names : List String} {body : Values V → Outcome (Completion V)}

theorem keeps_whileRounds {test : Values V → Outcome Bool} (hbody : ∀ σ d, body σ = .ok d → d.Keeps names σ) :
    ∀ {left : ℕ} {σ : Values V} {d : Completion V}, whileRounds test body left σ = .ok d → d.Keeps names σ := by
  intro left
  induction left with
  | zero =>
    intro σ d h
    rw [whileRounds] at h
    obtain ⟨b, -, h⟩ := bind_eq_ok.1 h
    split at h
    · cases h
    · cases h
      exact fun _ _ => rfl
  | succ left ih =>
    intro σ d h
    rw [whileRounds] at h
    obtain ⟨b, -, h⟩ := bind_eq_ok.1 h
    split at h
    · obtain ⟨d', hd', h⟩ := bind_eq_ok.1 h
      have hkeeps := hbody σ d' hd'
      cases d' with
      | next σ' => exact (ih h).trans hkeeps
      | brk σ' =>
        cases h
        exact hkeeps
      | ret vs =>
        cases h
        trivial
    · cases h
      exact fun _ _ => rfl

theorem keeps_forRounds {counter : String} (hcounter : counter ∈ names)
    (hbody : ∀ σ d, body σ = .ok d → d.Keeps names σ) :
    ∀ {left k : ℕ} {σ : Values V} {d : Completion V}, I.forRounds counter body left k σ = .ok d →
      d.Keeps names σ := by
  intro left
  induction left with
  | zero =>
    intro k σ d h
    cases h
    exact fun _ _ => rfl
  | succ left ih =>
    intro k σ d h
    rw [forRounds] at h
    obtain ⟨d', hd', h⟩ := bind_eq_ok.1 h
    have hset : ∀ x ∉ names, σ.set counter (I.index k) x = σ x :=
      fun x hx => Values.set_of_ne fun he => hx (he ▸ hcounter)
    have hkeeps := (hbody _ d' hd').trans hset
    cases d' with
    | next σ' => exact (ih h).trans hkeeps
    | brk σ' =>
      cases h
      exact hkeeps
    | ret vs =>
      cases h
      trivial

end Rounds

mutual
/-- **A statement keeps the values of the names that it does not assign.** -/
theorem keeps_exec : ∀ {s : Stmt ν} {σ : Values V} {d : Completion V}, I.exec c fuel s σ = .ok d →
    d.Keeps s.assigns σ := by
  intro s σ d h
  unfold exec at h
  split at h
  · obtain ⟨σ', hσ', rfl⟩ := map_eq_ok.1 h
    intro x hx
    exact keeps_assign hσ' x (by simpa [Stmt.assigns, Expr.targetsAll] using hx)
  · obtain ⟨σ', hσ', rfl⟩ := map_eq_ok.1 h
    exact keeps_assign hσ'
  · obtain ⟨vs, -, rfl⟩ := map_eq_ok.1 h
    trivial
  · obtain ⟨v, -, rfl⟩ := map_eq_ok.1 h
    trivial
  · obtain ⟨v, -, h⟩ := bind_eq_ok.1 h
    split at h
    · exact (keeps_execAll h).mono fun x => mem_append_left _
    · exact (keeps_execAll h).mono fun x => mem_append_right _
  · exact keeps_whileRounds (fun σ d hd => keeps_execAll hd) h
  · obtain ⟨v, -, h⟩ := bind_eq_ok.1 h
    exact keeps_forRounds (by simp [Expr.targets])
      (fun σ d hd => (keeps_execAll hd).mono fun x => mem_append_right _) h
  · cases h
    exact fun _ _ => rfl
  · cases h
    exact fun _ _ => rfl
  · split at h
    · cases h
      exact fun _ _ => rfl
    · cases h
  · cases h
theorem keeps_execAll : ∀ {ss : List (Stmt ν)} {σ : Values V} {d : Completion V}, I.execAll c fuel ss σ = .ok d →
    d.Keeps (Stmt.assignsAll ss) σ
  | [], σ, d, h => by
    cases h
    exact fun _ _ => rfl
  | s :: ss, σ, d, h => by
    rw [execAll] at h
    obtain ⟨d', hd', h⟩ := bind_eq_ok.1 h
    have hfirst := (keeps_exec hd').mono fun x (hx : x ∈ s.assigns) => mem_append_left (Stmt.assignsAll ss) hx
    cases d' with
    | next σ' => exact ((keeps_execAll h).mono fun x => mem_append_right _).trans hfirst
    | brk σ' =>
      cases h
      exact hfirst
    | ret vs =>
      cases h
      trivial
end

end Interpretation

/-! ### Statements that are left to what follows -/

namespace Stmt

mutual
/-- Whether a statement is never left by a break or a return that is not inside a loop of its own. -/
def falls : Stmt ν → Bool
  | .ret .. | .brk _ => false
  | .cond _ _ body orelse => fallsAll body && fallsAll orelse
  | _ => true
def fallsAll : List (Stmt ν) → Bool
  | [] => true
  | s :: ss => s.falls && fallsAll ss
end

end Stmt

namespace Liveness

theorem fallsAll_blankAll (ss : List (Stmt ν)) : Stmt.fallsAll (blankAll ss) = Stmt.fallsAll ss := by
  induction ss using blankAll.induct (fun s => (blank s).falls = s.falls) <;>
    simp_all only [blank, blankAll, Stmt.falls, Stmt.fallsAll]

theorem fallsAll_analyzeAll (after exit : NameSet) (ss : List (Stmt ν)) :
    Stmt.fallsAll (analyzeAll after exit ss).part = Stmt.fallsAll ss := by
  rw [← fallsAll_blankAll, blankAll_analyzeAll, fallsAll_blankAll]

theorem falls_analyze (after exit : NameSet) (s : Stmt ν) : (analyze after exit s).part.falls = s.falls := by
  simpa [analyzeAll, Stmt.fallsAll] using fallsAll_analyzeAll after exit [s]

/-- What is live after such statements and not assigned by them is live before them. -/
theorem mem_liveAll_of_fallsAll {ss : List (Stmt ν)} {after exit : NameSet} {x : String} (hf : Stmt.fallsAll ss)
    (hx : x ∈ after) (hs : x ∉ Stmt.assignsAll ss) : x ∈ (analyzeAll after exit ss).live := by
  induction ss using blankAll.induct (fun s => ∀ {after exit : NameSet}, s.falls → x ∈ after → x ∉ s.assigns →
    x ∈ (analyze after exit s).live) generalizing after exit with
  | case6 m t e body orelse _ _ _ hx hs =>
    rw [mem_live_for m t e orelse (regular_analyzeAll body)]
    exact .inl ⟨.inl hx, fun h => hs (mem_append_left _ h)⟩
  | case7 m e body orelse _ _ _ hx =>
    rw [mem_live_while m e orelse (regular_analyzeAll body)]
    exact .inl hx
  | _ =>
    grind [analyze, analyzeAll, Stmt.falls, Stmt.fallsAll, Stmt.assigns, Stmt.assignsAll, NameSet.mem_union,
      NameSet.mem_diff, NameSet.mem_ofList]

theorem mem_live_of_falls {s : Stmt ν} {after exit : NameSet} {x : String} (hf : s.falls) (hx : x ∈ after)
    (hs : x ∉ s.assigns) : x ∈ (analyze after exit s).live := by
  have h : x ∈ (analyzeAll after exit [s]).live :=
    mem_liveAll_of_fallsAll (by simpa [Stmt.fallsAll] using hf) hx (by simpa [Stmt.assignsAll] using hs)
  exact h

end Liveness

end OpGraph
