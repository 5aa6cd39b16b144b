import Mathlib
import OpGraph.Lowering.Arguments

/-!
Matching of call arguments with parameters. What a parameter is given is described without the order in which matching
goes on: positional arguments are dealt out first, and a keyword fills a parameter that got none. Matching succeeds
exactly if this leaves nothing over and nothing that is required empty, and then every argument is used once.
-/

namespace OpGraph.Arguments

open List

variable {α : Type}
variable {params : List CallParam} {args : List α}
variable {k : String × α} {P : α → Prop}

/-- A parameter with the positional arguments that it gets. -/
abbrev Share (α : Type) : Type :=
  CallParam × List α

/-- Positional arguments are dealt out in order: a parameter gets one, and a variadic one all that are left. -/
def deal : List CallParam → List α → List (Share α)
  | [], _ => []
  | p :: ps, args =>
    if p.isVariadic then (p, args) :: deal ps [] else (p, args.take 1) :: deal ps (args.drop 1)

namespace Share

/-- Whether a keyword may fill the parameter. -/
def isOpen (d : Share α) : Bool :=
  !d.1.isVariadic && d.2.isEmpty

def named (keywords : List (String × α)) (d : Share α) : List (String × α) :=
  if d.isOpen then (Members.get? keywords d.1.name).toList.map (d.1.name, ·) else []

def given (keywords : List (String × α)) (d : Share α) : List α :=
  d.2 ++ (d.named keywords).map Prod.snd

/-- The inputs of the parameter. One that is not variadic and not given is omitted, which leaves an empty place. -/
def inputs (keywords : List (String × α)) (d : Share α) : List (Option α) :=
  if d.1.isVariadic then d.2.map some
  else if d.1.isInput then if (d.given keywords).isEmpty then [none] else (d.given keywords).map some
  else []

def attrs (keywords : List (String × α)) (d : Share α) : List (String × α) :=
  if d.1.isVariadic || d.1.isInput then [] else (d.given keywords).map (d.1.name, ·)

theorem mem_of_named {keywords : List (String × α)} {d : Share α} (h : k ∈ d.named keywords) : k ∈ keywords := by
  unfold named at h
  split at h
  · obtain ⟨v, hv, rfl⟩ := mem_map.1 h
    exact Members.mem_of_get? (Option.mem_toList.1 hv)
  · cases h

theorem reduceOption_inputs (keywords : List (String × α)) (d : Share α) :
    (d.inputs keywords).reduceOption ++ (d.attrs keywords).map Prod.snd = d.given keywords := by
  unfold inputs attrs
  by_cases hv : d.1.isVariadic
  · simp [hv, given, named, isOpen, List.reduceOption, filterMap_map]
  · by_cases hi : d.1.isInput
    · cases hg : d.given keywords <;> simp [hv, hi, List.reduceOption, filterMap_map]
    · simp [hv, hi, List.reduceOption, Function.comp_def]

end Share

/-- **When arguments fit parameters**: what is required is given, all positional arguments are dealt out, and each keyword
names a parameter that is not variadic and gets no positional argument. -/
structure Fits (params : List CallParam) (args : List α) (keywords : List (String × α)) : Prop where
  required : ∀ d ∈ deal params args, d.1.required → d.given keywords ≠ []
  dealt : args.length ≤ params.length ∨ ∃ p ∈ params, p.isVariadic
  named : ∀ k ∈ keywords, ∃ d ∈ deal params args, d.1.name = k.1 ∧ d.1.isVariadic = false ∧ d.2 = []

/-! ### Dealing -/

def leftover (params : List CallParam) (args : List α) : List α :=
  if params.any (·.isVariadic) then [] else args.drop params.length

theorem leftover_cons (p : CallParam) (ps : List CallParam) (args : List α) :
    leftover (p :: ps) args = leftover ps (if p.isVariadic then [] else args.drop 1) := by
  unfold leftover
  cases hp : p.isVariadic with
  | true => simp [hp]
  | false => simp [hp]

theorem deal_cons (p : CallParam) (ps : List CallParam) (args : List α) :
    deal (p :: ps) args = (p, if p.isVariadic then args else args.take 1) ::
      deal ps (if p.isVariadic then [] else args.drop 1) := by
  rw [deal]
  split <;> rfl

theorem map_fst_deal (params : List CallParam) (args : List α) : (deal params args).map Prod.fst = params := by
  induction params generalizing args with
  | nil => rfl
  | cons p ps ih => rw [deal_cons, map_cons, ih]

theorem flatMap_deal (params : List CallParam) (args : List α) :
    (deal params args).flatMap Prod.snd ++ leftover params args = args := by
  induction params generalizing args with
  | nil => rfl
  | cons p ps ih =>
    rw [deal_cons, leftover_cons, flatMap_cons, append_assoc, ih]
    split
    · exact append_nil args
    · exact take_append_drop 1 args

theorem leftover_eq_nil_iff (params : List CallParam) (args : List α) :
    leftover params args = [] ↔ args.length ≤ params.length ∨ ∃ p ∈ params, p.isVariadic := by
  unfold leftover
  split
  · rename_i hany
    exact iff_of_true rfl (.inr (by simpa using hany))
  · rename_i hany
    rw [drop_eq_nil_iff]
    exact (or_iff_left (by simpa using hany)).symm

/-! ### Steps and runs -/

section Taking

variable (keywords : List (String × α)) (callee : String)

/-- **One parameter** takes what it is given, unless that is nothing and it is required. -/
theorem take_eq_ok_iff (t t' : Taken α) (p : CallParam) :
    take keywords callee t p = .ok t' ↔
      let d : Share α := (p, if p.isVariadic then t.rest else t.rest.take 1)
      (p.required → d.given keywords ≠ []) ∧
        ⟨t.inputs ++ d.inputs keywords, t.attrs ++ d.attrs keywords, if p.isVariadic then [] else t.rest.drop 1,
          t.used ++ (d.named keywords).map Prod.fst⟩ = t' := by
  obtain ⟨inputs, attrs, rest, used⟩ := t
  unfold take
  cases hv : p.isVariadic with
  | true =>
    simp only [if_true, Share.given, Share.inputs, Share.attrs, Share.named, Share.isOpen, hv]
    cases rest with
    | nil => cases p.required <;> simp [error]
    | cons x rest => simp
  | false =>
    simp only [Bool.false_eq_true, if_false, Share.given, Share.inputs, Share.attrs, Share.named, Share.isOpen, hv]
    cases rest with
    | cons x rest => cases hi : p.isInput <;> simp [Taken.put, hi]
    | nil =>
      cases Members.get? keywords p.name with
      | some x => cases hi : p.isInput <;> simp [Taken.put, hi]
      | none => cases p.required <;> cases p.isInput <;> simp [error]

/-- **All parameters** take what they are given. -/
theorem foldlM_take_eq_ok_iff (params : List CallParam) (t t' : Taken α) :
    params.foldlM (take keywords callee) t = .ok t' ↔
      (∀ d ∈ deal params t.rest, d.1.required → d.given keywords ≠ []) ∧
        ⟨t.inputs ++ (deal params t.rest).flatMap (·.inputs keywords),
          t.attrs ++ (deal params t.rest).flatMap (·.attrs keywords), leftover params t.rest,
          t.used ++ ((deal params t.rest).flatMap (·.named keywords)).map Prod.fst⟩ = t' := by
  induction params generalizing t with
  | nil => simp [deal, leftover, pure, Except.pure]
  | cons p ps ih =>
    rw [foldlM_cons, deal_cons, leftover_cons, forall_mem_cons]
    cases htake : take keywords callee t p with
    | error e =>
      refine iff_of_false (by simp [bind, Except.bind]) fun h => ?_
      have := (take_eq_ok_iff keywords callee t _ p).2 ⟨h.1.1, rfl⟩
      rw [htake] at this
      cases this
    | ok t₁ =>
      obtain ⟨hgiven, rfl⟩ := (take_eq_ok_iff keywords callee t t₁ p).1 htake
      refine (ih _).trans ?_
      simp only [flatMap_cons, map_append, append_assoc]
      exact and_congr_left' (and_iff_right hgiven).symm

theorem mem_used_iff (hk : k ∈ keywords) :
    k.1 ∈ ((deal params args).flatMap (·.named keywords)).map Prod.fst ↔
      ∃ d ∈ deal params args, d.1.name = k.1 ∧ d.1.isVariadic = false ∧ d.2 = [] := by
  have hfound : ∃ v, Members.get? keywords k.1 = some v := by
    rw [← Option.isSome_iff_exists, Members.get?, Option.isSome_map, find?_isSome]
    exact ⟨k, hk, by simp⟩
  simp only [mem_map, mem_flatMap]
  constructor
  · rintro ⟨m, ⟨d, hd, hm⟩, hname⟩
    unfold Share.named at hm
    split at hm
    · rename_i hopen
      obtain ⟨v, -, rfl⟩ := mem_map.1 hm
      exact ⟨d, hd, hname, by simpa [Share.isOpen] using hopen⟩
    · cases hm
  · rintro ⟨d, hd, hname, hv, hnil⟩
    obtain ⟨v, hfound⟩ := hfound
    refine ⟨(k.1, v), ⟨d, hd, ?_⟩, rfl⟩
    simp [Share.named, Share.isOpen, hv, hnil, hname, hfound]

/-- **Matching** succeeds exactly if the arguments fit, and gives each parameter what it is given. -/
theorem separate_eq_ok_iff (params : List CallParam) (args : List α) (r : Arguments α) :
    separate params args keywords callee = .ok r ↔ Fits params args keywords ∧
      ⟨trim ((deal params args).flatMap (·.inputs keywords)), (deal params args).flatMap (·.attrs keywords)⟩ = r := by
  unfold separate
  cases hfold : params.foldlM (take keywords callee) { rest := args } with
  | error e =>
    refine iff_of_false (by simp [bind, Except.bind]) fun h => ?_
    rw [(foldlM_take_eq_ok_iff keywords callee params { rest := args } _).2 ⟨h.1.required, rfl⟩] at hfold
    cases hfold
  | ok t =>
    obtain ⟨hgiven, rfl⟩ := (foldlM_take_eq_ok_iff keywords callee params _ t).1 hfold
    change (if _ then _ else _) = _ ↔ _
    rw [nil_append, nil_append, nil_append]
    split
    · rename_i hrest
      refine iff_of_false (by simp [error]) fun h => ?_
      rw [(leftover_eq_nil_iff params args).2 h.1.dealt] at hrest
      cases hrest
    · rename_i hrest
      have hdealt := (leftover_eq_nil_iff params args).1 (by simpa using hrest)
      cases hfind : keywords.find? fun k => !List.contains _ k.1 with
      | some k =>
        refine iff_of_false (by simp [error]) fun h => ?_
        have hmem := mem_of_find?_eq_some hfind
        have hunused := find?_some hfind
        have := (mem_used_iff keywords hmem).2 (h.1.named k hmem)
        simp [this] at hunused
      | none =>
        have hused := find?_eq_none.1 hfind
        refine Iff.trans ?_ (and_iff_right ⟨hgiven, hdealt, fun k hk => ?_⟩).symm
        · simp [pure, Except.pure]
        · exact (mem_used_iff keywords hk).1 (by simpa using hused k hk)

end Taking

variable {keywords : List (String × α)} {callee : String} {r : Arguments α}

/-! ### Results -/

theorem trim_append (xs : List (Option α)) : ∃ n, trim xs ++ List.replicate n none = xs := by
  have hsplit := congrArg List.reverse (takeWhile_append_dropWhile (p := Option.isNone) (l := xs.reverse))
  rw [reverse_append, reverse_reverse] at hsplit
  refine ⟨(xs.reverse.takeWhile Option.isNone).length, Eq.trans (congrArg (trim xs ++ ·) ?_) hsplit⟩
  refine (eq_replicate_iff.2 ⟨length_reverse, fun x hx => ?_⟩).symm
  exact Option.isNone_iff_eq_none.1 (mem_takeWhile_imp (mem_reverse.1 hx))

theorem forall_separate (ha : ∀ v ∈ args, P v) (hk : ∀ k ∈ keywords, P k.2)
    (h : separate params args keywords callee = .ok r) : (∀ v, some v ∈ r.inputs → P v) ∧ ∀ a ∈ r.attrs, P a.2 := by
  obtain ⟨-, rfl⟩ := (separate_eq_ok_iff keywords callee params args r).1 h
  have hgiven : ∀ d ∈ deal params args, ∀ v ∈ d.given keywords, P v := by
    intro d hd v hv
    rcases mem_append.1 hv with hv | hv
    · refine ha v ?_
      rw [← flatMap_deal params args]
      exact mem_append_left _ (mem_flatMap.2 ⟨d, hd, hv⟩)
    · obtain ⟨k, hmem, rfl⟩ := mem_map.1 hv
      exact hk k (Share.mem_of_named hmem)
  simp only [← Share.reduceOption_inputs, mem_append, reduceOption_mem_iff, mem_map] at hgiven
  constructor
  · intro v hv
    obtain ⟨n, hn⟩ := trim_append ((deal params args).flatMap (·.inputs keywords))
    obtain ⟨d, hd, hv⟩ := mem_flatMap.1 (hn ▸ mem_append_left _ hv)
    exact hgiven d hd v (.inl hv)
  · intro a hattr
    obtain ⟨d, hd, hattr⟩ := mem_flatMap.1 hattr
    exact hgiven d hd _ (.inr ⟨a, hattr, rfl⟩)

/-- Arguments by their use. Of a callee without known parameters, positional arguments are inputs and keywords
attributes. -/
def split (params : Option (List CallParam)) (args : List α) (keywords : List (String × α)) (callee : String) :
    Except Error (Arguments α) :=
  match params with
  | none => .ok ⟨args.map some, keywords⟩
  | some params => separate params args (keywords.foldl (fun ks (name, x) => Members.set ks name x) []) callee

theorem forall_split {params : Option (List CallParam)} (ha : ∀ v ∈ args, P v) (hk : ∀ k ∈ keywords, P k.2)
    (h : split params args keywords callee = .ok r) : (∀ v, some v ∈ r.inputs → P v) ∧ ∀ a ∈ r.attrs, P a.2 := by
  cases params with
  | none =>
    cases h
    exact ⟨by simpa using ha, hk⟩
  | some params =>
    exact forall_separate ha (fun k hmem => hk k ((Members.mem_of_foldl_set hmem).resolve_right (by simp))) h

theorem getLast?_trim (xs : List (Option α)) : (trim xs).getLast? ≠ some none := by
  rw [trim, getLast?_reverse]
  intro h
  have := head?_dropWhile_not Option.isNone xs.reverse
  rw [h] at this
  cases this

theorem sublist_named (keywords : List (String × α)) (ds : List (Share α)) :
    ((ds.flatMap (·.named keywords)).map Prod.fst).Sublist (ds.map (·.1.name)) := by
  induction ds with
  | nil => exact .slnil
  | cons d ds ih =>
    rw [flatMap_cons, map_append, map_cons, ← singleton_append]
    refine List.Sublist.append ?_ ih
    unfold Share.named
    split
    · cases Members.get? keywords d.1.name <;> simp
    · exact nil_sublist _

theorem perm_named (hparams : (params.map (·.name)).Nodup)
    (hkeywords : (keywords.map Prod.fst).Nodup) (hfits : Fits params args keywords) :
    ((deal params args).flatMap (·.named keywords)).Perm keywords := by
  have hnames := sublist_named keywords (deal params args)
  rw [show (deal params args).map (·.1.name) = ((deal params args).map Prod.fst).map (·.name) by rw [map_map]; rfl,
    map_fst_deal] at hnames
  have hmem : ∀ m ∈ (deal params args).flatMap (·.named keywords), m ∈ keywords := by
    intro m hm
    obtain ⟨d, -, hm⟩ := mem_flatMap.1 hm
    exact Share.mem_of_named hm
  refine (perm_ext_iff_of_nodup (hnames.nodup hparams).of_map hkeywords.of_map).2 fun k => ⟨hmem k, fun hk => ?_⟩
  obtain ⟨m, hm, hname⟩ := mem_map.1 ((mem_used_iff keywords hk).2 (hfits.named k hk))
  exact inj_on_of_nodup_map hkeywords (hmem m hm) hk hname ▸ hm

theorem perm_given (keywords : List (String × α)) (ds : List (Share α)) :
    ((ds.flatMap (·.inputs keywords)).reduceOption ++ (ds.flatMap (·.attrs keywords)).map Prod.snd).Perm
      (ds.flatMap Prod.snd ++ (ds.flatMap (·.named keywords)).map Prod.snd) := by
  simp only [List.reduceOption, filterMap_flatMap, map_flatMap]
  refine (flatMap_append_perm ds _ _).trans (.trans ?_ (flatMap_append_perm ds _ _).symm)
  exact .of_eq (congrArg ds.flatMap (funext (Share.reduceOption_inputs keywords)))

theorem perm_separate
    (h : separate params args keywords callee = .ok r) : (r.inputs.reduceOption ++ r.attrs.map Prod.snd).Perm
      (args ++ ((deal params args).flatMap (·.named keywords)).map Prod.snd) := by
  obtain ⟨hfits, rfl⟩ := (separate_eq_ok_iff keywords callee params args r).1 h
  obtain ⟨n, hn⟩ := trim_append ((deal params args).flatMap (·.inputs keywords))
  have hdeal := flatMap_deal params args
  rw [(leftover_eq_nil_iff params args).2 hfits.dealt, append_nil] at hdeal
  have hperm := perm_given keywords (deal params args)
  rwa [← hn, reduceOption_append, reduceOption_replicate_none, append_nil, hdeal] at hperm

/-- **Arguments are matched with parameters once each.** Matching succeeds exactly if the arguments fit. Then the inputs
and attributes hold every argument once; both follow the order of the parameters, and an input is empty only if it is
optional, not given and before one that is given. -/
theorem arguments_matched_once {params : List CallParam} {args : List α} {keywords : List (String × α)} (callee : String)
    (hparams : (params.map (·.name)).Nodup) (hkeywords : (keywords.map Prod.fst).Nodup) :
    ((∃ r, separate params args keywords callee = .ok r) ↔ Fits params args keywords) ∧
    ∀ r, separate params args keywords callee = .ok r →
      (r.inputs.reduceOption ++ r.attrs.map Prod.snd).Perm (args ++ keywords.map Prod.snd) ∧
      (∃ n, r.inputs ++ List.replicate n none = (deal params args).flatMap (·.inputs keywords)) ∧
      (∀ d ∈ deal params args, none ∈ d.inputs keywords →
        d.1.isInput ∧ d.1.isVariadic = false ∧ d.1.required = false) ∧
      r.inputs.getLast? ≠ some none ∧ r.attrs = (deal params args).flatMap (·.attrs keywords) := by
  have hiff := separate_eq_ok_iff keywords callee params args
  refine ⟨⟨fun h => h.elim fun r hr => ((hiff r).1 hr).1, fun hfits => ⟨_, (hiff _).2 ⟨hfits, rfl⟩⟩⟩, fun r hr => ?_⟩
  have hperm := perm_separate hr
  obtain ⟨hfits, rfl⟩ := (hiff r).1 hr
  refine ⟨hperm.trans (((perm_named hparams hkeywords hfits).map _).append_left args), trim_append _, fun d hd hnone => ?_, getLast?_trim _, rfl⟩
  have hrequired := hfits.required d hd
  unfold Share.inputs at hnone
  split at hnone
  · simp at hnone
  · split at hnone
    · split at hnone
      · simp_all
      · simp at hnone
    · cases hnone

/-- Two inputs that may be omitted and an attribute follow one that is required. -/
def sampleParams : List CallParam :=
  [⟨"x", true, false, true, none, none⟩, ⟨"low", true, false, false, none, none⟩,
    ⟨"high", true, false, false, none, none⟩, ⟨"mode", false, false, false, none, none⟩]

theorem arguments_matched_once_sample :
    separate sampleParams ["a"] [("mode", "m"), ("high", "h")] "f" =
      .ok ⟨[some "a", none, some "h"], [("mode", "m")]⟩ ∧
    Fits sampleParams ["a"] [("mode", "m"), ("high", "h")] ∧
    ([some "a", none, some "h"].reduceOption ++ ["m"]).Perm ["a", "m", "h"] := by
  have hparams : (sampleParams.map (·.name)).Nodup := by decide
  have hkeywords : ([("mode", "m"), ("high", "h")].map Prod.fst).Nodup := by decide
  obtain ⟨hfits, hmatched⟩ := arguments_matched_once "f" hparams hkeywords
  exact ⟨rfl, hfits.1 ⟨_, rfl⟩, (hmatched ⟨[some "a", none, some "h"], [("mode", "m")]⟩ rfl).1⟩

end OpGraph.Arguments
