import OpGraph.Proofs.Names

/-!
Histories of a supply of names. What a history has taken are the names that it has generated or reserved since its last
reset. A generated name is not among them: it is the candidate, or the candidate with the least free number at or above
the counter. The search for that number tries one name after the other without any bound, and it ends.
-/

namespace OpGraph.Names

open List

inductive Call where
  | generate (candidate : String)
  | reserve (name : String)
  | reset

def Call.apply (ns : Names) : Call → Names
  | generate candidate => (ns.generate candidate).2
  | reserve name => ns.reserve name
  | reset => ns.reset

/-- The supply after a history of calls, the first call first. -/
def after (calls : List Call) : Names :=
  calls.foldl Call.apply {}

/-- A call that gives or reserves the name, with no reset after it. -/
def Taken (calls : List Call) (name : String) : Prop :=
  ∃ before call later, calls = before ++ call :: later ∧ .reset ∉ later ∧
    (call = .reserve name ∨ ∃ candidate, call = .generate candidate ∧ ((after before).generate candidate).1 = name)

/-- The search from a name and a counter: as long as the name is taken, the next one is numbered by the counter. It has
no bound on the rounds, so that a search without an end is related to nothing. -/
inductive Search (taken : String → Prop) (candidate : String) : String → ℕ → String → ℕ → Prop
  | free {name k} : ¬ taken name → Search taken candidate name k name k
  | next {name k found k'} : taken name → Search taken candidate (numbered candidate k) (k + 1) found k' →
      Search taken candidate name k found k'

theorem after_concat (calls : List Call) (call : Call) : after (calls ++ [call]) = call.apply (after calls) :=
  foldl_concat ..

/-! ### The search -/

theorem mem_of_lt_freeNumber {used : List String} {candidate : String} {tries k j : ℕ} (hk : k ≤ j)
    (hj : j < freeNumber used candidate tries k) : numbered candidate j ∈ used := by
  induction tries generalizing k with
  | zero => exact absurd hj hk.not_gt
  | succ tries ih =>
    rw [freeNumber] at hj
    split at hj
    · rename_i hmem
      rcases hk.eq_or_lt with rfl | hlt
      · exact elem_iff.1 hmem
      · exact ih hlt hj
    · exact absurd hj hk.not_gt

theorem le_freeNumber (used : List String) (candidate : String) (tries k : ℕ) :
    k ≤ freeNumber used candidate tries k := by
  induction tries generalizing k with
  | zero => exact le_rfl
  | succ tries ih =>
    rw [freeNumber]
    split
    · exact (Nat.le_succ k).trans (ih (k + 1))
    · exact le_rfl

theorem isLeast_freeNumber (used : List String) (candidate : String) (k : ℕ) :
    IsLeast {j | k ≤ j ∧ numbered candidate j ∉ used} (freeNumber used candidate used.length k) := by
  refine ⟨⟨le_freeNumber .., numbered_freeNumber_notMem used candidate k⟩, fun j hj => ?_⟩
  by_contra hlt
  exact hj.2 (mem_of_lt_freeNumber hj.1 (not_le.1 hlt))

/-- Names that are taken are passed over, one round each. -/
theorem search_of_isLeast {taken : String → Prop} {candidate : String} {k j : ℕ}
    (h : IsLeast {j | k ≤ j ∧ ¬ taken (numbered candidate j)} j) :
    Search taken candidate (numbered candidate k) (k + 1) (numbered candidate j) (j + 1) := by
  obtain ⟨d, rfl⟩ := Nat.exists_eq_add_of_le h.1.1
  induction d generalizing k with
  | zero => exact .free h.1.2
  | succ d ih =>
    have htaken : taken (numbered candidate k) := by
      by_contra hfree
      have := h.2 ⟨le_rfl, hfree⟩
      omega
    refine .next htaken ?_
    rw [show k + (d + 1) = k + 1 + d by omega] at h ⊢
    exact ih ⟨⟨by omega, h.1.2⟩, fun i hi => h.2 ⟨by have := hi.1; omega, hi.2⟩⟩

/-! ### One call -/

/-- What a supply generates: a free candidate with the counter as it is, or the candidate with the least free number,
which the counter passes. -/
theorem generate_cases (ns : Names) (candidate : String) :
    (candidate ∉ ns.used ∧ (ns.generate candidate).1 = candidate ∧ (ns.generate candidate).2.counter = ns.counter) ∨
    (candidate ∈ ns.used ∧ ∃ k, IsLeast {j | ns.counter ≤ j ∧ numbered candidate j ∉ ns.used} k ∧
      (ns.generate candidate).1 = numbered candidate k ∧ (ns.generate candidate).2.counter = k + 1) := by
  unfold generate
  split
  · rename_i h
    exact .inr ⟨elem_iff.1 h, _, isLeast_freeNumber .., rfl, rfl⟩
  · rename_i h
    exact .inl ⟨fun hm => h (elem_iff.2 hm), rfl, rfl⟩

theorem search_generate (ns : Names) (candidate : String) :
    Search (· ∈ ns.used) candidate candidate ns.counter (ns.generate candidate).1
      (ns.generate candidate).2.counter := by
  obtain ⟨hfree, hname, hcounter⟩ | ⟨hmem, k, hk, hname, hcounter⟩ := ns.generate_cases candidate
  · rw [hname, hcounter]
    exact .free hfree
  · rw [hname, hcounter]
    exact .next hmem (search_of_isLeast hk)

theorem counter_le_apply (ns : Names) {call : Call} (h : call ≠ .reset) : ns.counter ≤ (call.apply ns).counter := by
  cases call with
  | generate candidate =>
    obtain ⟨-, -, hcounter⟩ | ⟨-, k, hk, -, hcounter⟩ := ns.generate_cases candidate
    · exact hcounter.ge
    · exact hk.1.1.trans (by rw [Call.apply, hcounter]; exact Nat.le_succ k)
  | reserve => exact le_rfl
  | reset => exact absurd rfl h

/-! ### Histories -/

theorem taken_concat {calls : List Call} {call : Call} {name : String} :
    Taken (calls ++ [call]) name ↔ (call ≠ .reset ∧ Taken calls name) ∨ call = .reserve name ∨
      ∃ candidate, call = .generate candidate ∧ ((after calls).generate candidate).1 = name := by
  constructor
  · rintro ⟨before, c, later, heq, hreset, hc⟩
    rcases eq_nil_or_concat later with rfl | ⟨later, last, rfl⟩
    · obtain ⟨rfl, rfl⟩ := append_singleton_inj.1 heq
      exact .inr hc
    · rw [concat_eq_append, ← cons_append, ← append_assoc] at heq
      obtain ⟨rfl, rfl⟩ := append_singleton_inj.1 heq
      rw [concat_eq_append, mem_append, not_or] at hreset
      exact .inl ⟨fun h => hreset.2 (mem_singleton.2 h.symm), before, c, later, rfl, hreset.1, hc⟩
  · rintro (⟨hcall, before, c, later, rfl, hreset, hc⟩ | h)
    · refine ⟨before, c, later ++ [call], by simp, ?_, hc⟩
      rw [mem_append, not_or]
      exact ⟨hreset, fun h => hcall (mem_singleton.1 h).symm⟩
    · exact ⟨calls, call, [], rfl, not_mem_nil, h⟩

theorem mem_used_after (calls : List Call) (name : String) : name ∈ (after calls).used ↔ Taken calls name := by
  induction calls using reverseRecOn with
  | nil => simp [after, Taken]
  | append_singleton calls call ih =>
    rw [after_concat, taken_concat, ← ih]
    cases call with
    | generate candidate => simp [Call.apply, used_generate, or_comm, eq_comm]
    | reserve name => simp [Call.apply, mem_reserve, or_comm, eq_comm]
    | reset => simp [Call.apply, reset]

theorem counter_after_le (calls : List Call) {later : List Call} (h : .reset ∉ later) :
    (after calls).counter ≤ (after (calls ++ later)).counter := by
  induction later using reverseRecOn with
  | nil => simp
  | append_singleton later call ih =>
    rw [mem_append, not_or] at h
    rw [← append_assoc, after_concat]
    exact (ih h.1).trans (counter_le_apply _ fun hc => h.2 (mem_singleton.2 hc.symm))

/-- After every history the search for a name ends, with the name and the counter that `generate` gives. -/
theorem generate_fresh (calls : List Call) (candidate : String) :
    let ns := after calls
    let name := (ns.generate candidate).1
    Search (Taken calls) candidate candidate ns.counter name (ns.generate candidate).2.counter ∧
      ¬ Taken calls name ∧
      (¬ Taken calls candidate → name = candidate) ∧
      (Taken calls candidate → ∃ k, name = numbered candidate k ∧
        IsLeast {j | ns.counter ≤ j ∧ ¬ Taken calls (numbered candidate j)} k) ∧
      (∀ x, ns.contains x ↔ Taken calls x) ∧
      ∀ later, .reset ∉ later → ns.counter ≤ (after (calls ++ later)).counter := by
  intro ns name
  have hused : (· ∈ ns.used) = Taken calls := funext fun x => propext (mem_used_after calls x)
  have hsearch := ns.search_generate candidate
  have hfresh := ns.generate_notMem candidate
  have hcases := ns.generate_cases candidate
  simp only [← hused]
  refine ⟨hsearch, hfresh, fun hfree => ?_, fun htaken => ?_, fun x => elem_iff, fun later => counter_after_le calls⟩
  · exact (hcases.resolve_right fun h => hfree h.1).2.1
  · obtain ⟨-, k, hk, hname, -⟩ := hcases.resolve_left fun h => h.1 htaken
    exact ⟨k, hname, hk⟩

end OpGraph.Names
