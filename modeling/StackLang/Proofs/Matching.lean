import Mathlib.Data.List.Nodup
import StackLang.Proofs.Walking

/-!
This module contains what matching arguments against a stack finds. The slots are gone through once,
from the bottom up, with the substitution found so far; but neither whether they match nor what the
type parameters then stand for depends on that order.
-/

namespace StackLang

namespace Substitution

theorem get?_concat (s : Substitution) (name other : String) (k : Kind) :
    get? (s ++ [(name, k)]) other = (s.get? other).or (if name = other then some k else none) := by
  simp only [get?, List.find?_append, List.find?_singleton, decide_eq_true_eq]
  cases s.find? (·.1 = other) with
  | some entry => rfl
  | none =>
    simp only [Option.none_or, Option.map_none]
    split
    · rfl
    · rfl

theorem isSome_get? {s : Substitution} {name : String} :
    (s.get? name).isSome ↔ name ∈ s.map (·.1) := by
  simp [get?, List.find?_isSome]

theorem get?_eq_none {s : Substitution} {name : String} :
    s.get? name = none ↔ name ∉ s.map (·.1) := by
  rw [← isSome_get?, Option.isSome_iff_ne_none, not_not]

/-- A slot that matches adds its parameter, unless that stands for the same kind already. -/
theorem matchSlot_eq_some {s t : Substitution} {expected found : Kind} :
    s.matchSlot expected found = some t ↔ expected.accepts found = true ∧
      (t = s ∧ (∀ name, expected = .param name → s.get? name = some found) ∨
        ∃ name, expected = .param name ∧ s.get? name = none ∧ t = s ++ [(name, found)]) := by
  unfold matchSlot
  cases haccepts : expected.accepts found with
  | false => simp
  | true =>
    cases expected with
    | param name =>
      cases hname : s.get? name with
      | none => simp [hname, eq_comm]
      | some previous => simp [hname, eq_comm, and_comm]
    | _ => simp [eq_comm]

theorem get?_of_matchSlot {s t : Substitution} {expected found : Kind} {name : String} {k : Kind}
    (h : s.matchSlot expected found = some t) (hk : s.get? name = some k) :
    t.get? name = some k := by
  obtain ⟨-, ⟨rfl, -⟩ | ⟨other, -, -, rfl⟩⟩ := matchSlot_eq_some.mp h
  · exact hk
  · rw [get?_concat, hk]
    rfl

theorem get?_of_matchSlot_param {s t : Substitution} {name : String} {found : Kind}
    (h : s.matchSlot (.param name) found = some t) : t.get? name = some found := by
  obtain ⟨-, ⟨rfl, hs⟩ | ⟨other, hother, hnone, rfl⟩⟩ := matchSlot_eq_some.mp h
  · exact hs name rfl
  · obtain rfl := Kind.param.inj hother
    rw [get?_concat, hnone]
    simp

theorem get?_of_matchSlot_eq {s t : Substitution} {expected found k : Kind} {name : String}
    (h : s.matchSlot expected found = some t) (hk : t.get? name = some k) :
    s.get? name = some k ∨ expected = .param name ∧ found = k := by
  obtain ⟨-, ⟨rfl, -⟩ | ⟨other, rfl, -, rfl⟩⟩ := matchSlot_eq_some.mp h
  · exact Or.inl hk
  · rw [get?_concat, Option.or_eq_some_iff] at hk
    rcases hk with hk | ⟨-, hk⟩
    · exact Or.inl hk
    · rw [Option.ite_none_right_eq_some, Option.some.injEq] at hk
      obtain ⟨rfl, rfl⟩ := hk
      exact Or.inr ⟨rfl, rfl⟩

theorem nodup_of_matchSlot {s t : Substitution} {expected found : Kind}
    (h : s.matchSlot expected found = some t) (hs : (s.map (·.1)).Nodup) :
    (t.map (·.1)).Nodup := by
  obtain ⟨-, ⟨rfl, -⟩ | ⟨name, -, hnone, rfl⟩⟩ := matchSlot_eq_some.mp h
  · exact hs
  · rw [List.map_append, List.map_singleton, ← List.concat_eq_append]
    exact hs.concat (get?_eq_none.mp hnone)

theorem exists_matchSlot {s : Substitution} {expected found : Kind}
    (haccepts : expected.accepts found = true)
    (hknown : ∀ name k, s.get? name = some k → expected = .param name → k = found) :
    ∃ t, s.matchSlot expected found = some t := by
  simp only [matchSlot_eq_some, haccepts, true_and]
  cases expected with
  | param name =>
    cases hname : s.get? name with
    | none => exact ⟨_, Or.inr ⟨name, rfl, hname, rfl⟩⟩
    | some k =>
      refine ⟨s, Or.inl ⟨rfl, ?_⟩⟩
      rintro other ⟨rfl⟩
      rw [hname, hknown name k hname rfl]
  | _ => exact ⟨s, Or.inl ⟨rfl, by simp⟩⟩

theorem preserved_of_matchSlots {P : Substitution → Prop}
    (hslot : ∀ {s t : Substitution} {expected found : Kind},
      s.matchSlot expected found = some t → P s → P t)
    {s t : Substitution} {args kinds : List Kind} (h : s.matchSlots args kinds = some t)
    (hs : P s) : P t := by
  induction args generalizing s kinds with
  | nil =>
    simp only [matchSlots, Option.some.injEq] at h
    rwa [← h]
  | cons expected args ih =>
    cases kinds with
    | nil =>
      simp only [matchSlots, Option.some.injEq] at h
      rwa [← h]
    | cons found kinds =>
      obtain ⟨u, hu, ht⟩ := Option.bind_eq_some_iff.mp h
      exact ih ht (hslot hu hs)

theorem get?_of_matchSlots_of_get? {s t : Substitution} {args kinds : List Kind} {name : String}
    {k : Kind} (h : s.matchSlots args kinds = some t) (hk : s.get? name = some k) :
    t.get? name = some k :=
  preserved_of_matchSlots get?_of_matchSlot h hk

theorem nodup_of_matchSlots {s t : Substitution} {args kinds : List Kind}
    (h : s.matchSlots args kinds = some t) (hs : (s.map (·.1)).Nodup) : (t.map (·.1)).Nodup :=
  preserved_of_matchSlots nodup_of_matchSlot h hs

theorem get?_of_matchSlots {s t : Substitution} {args kinds : List Kind} {name : String} {k : Kind}
    (h : s.matchSlots args kinds = some t) (hmem : (Kind.param name, k) ∈ args.zip kinds) :
    t.get? name = some k := by
  induction args generalizing s kinds with
  | nil => simp at hmem
  | cons expected args ih =>
    cases kinds with
    | nil => simp at hmem
    | cons found kinds =>
      obtain ⟨u, hu, ht⟩ := Option.bind_eq_some_iff.mp h
      rw [List.zip_cons_cons, List.mem_cons] at hmem
      rcases hmem with heq | hmem
      · simp only [Prod.mk.injEq] at heq
        obtain ⟨rfl, rfl⟩ := heq
        apply get?_of_matchSlots_of_get? ht
        apply get?_of_matchSlot_param hu
      · apply ih ht hmem

theorem mem_zip_of_get? {s t : Substitution} {args kinds : List Kind} {name : String} {k : Kind}
    (h : s.matchSlots args kinds = some t) (hk : t.get? name = some k) :
    s.get? name = some k ∨ (Kind.param name, k) ∈ args.zip kinds := by
  induction args generalizing s kinds with
  | nil =>
    simp only [matchSlots, Option.some.injEq] at h
    rw [h]
    exact Or.inl hk
  | cons expected args ih =>
    cases kinds with
    | nil =>
      simp only [matchSlots, Option.some.injEq] at h
      rw [h]
      exact Or.inl hk
    | cons found kinds =>
      obtain ⟨u, hu, ht⟩ := Option.bind_eq_some_iff.mp h
      rw [List.zip_cons_cons, List.mem_cons]
      rcases ih ht with hk | hmem
      · rcases get?_of_matchSlot_eq hu hk with hk | ⟨rfl, rfl⟩
        · exact Or.inl hk
        · exact Or.inr (Or.inl rfl)
      · exact Or.inr (Or.inr hmem)

theorem accepts_of_matchSlots {s t : Substitution} {args kinds : List Kind} {expected found : Kind}
    (h : s.matchSlots args kinds = some t) (hmem : (expected, found) ∈ args.zip kinds) :
    expected.accepts found = true := by
  induction args generalizing s kinds with
  | nil => simp at hmem
  | cons first args ih =>
    cases kinds with
    | nil => simp at hmem
    | cons kind kinds =>
      obtain ⟨u, hu, ht⟩ := Option.bind_eq_some_iff.mp h
      rw [List.zip_cons_cons, List.mem_cons] at hmem
      rcases hmem with heq | hmem
      · obtain ⟨rfl, rfl⟩ := Prod.mk.inj heq
        exact (matchSlot_eq_some.mp hu).1
      · exact ih ht hmem

theorem exists_matchSlots {s : Substitution} {args kinds : List Kind}
    (haccepts : ∀ expected found, (expected, found) ∈ args.zip kinds →
      expected.accepts found = true)
    (hknown : ∀ name k k', s.get? name = some k → (Kind.param name, k') ∈ args.zip kinds → k = k')
    (hagree : ∀ name k k', (Kind.param name, k) ∈ args.zip kinds →
      (Kind.param name, k') ∈ args.zip kinds → k = k') :
    ∃ t, s.matchSlots args kinds = some t := by
  induction args generalizing s kinds with
  | nil => exact ⟨s, rfl⟩
  | cons expected args ih =>
    cases kinds with
    | nil => exact ⟨s, rfl⟩
    | cons found kinds =>
      rw [List.zip_cons_cons] at haccepts hknown hagree
      obtain ⟨u, hu⟩ : ∃ u, s.matchSlot expected found = some u := by
        apply exists_matchSlot (haccepts expected found List.mem_cons_self)
        rintro name k hk rfl
        exact hknown name k found hk List.mem_cons_self
      obtain ⟨t, ht⟩ : ∃ t, u.matchSlots args kinds = some t := by
        apply ih
        · intro e f hmem
          exact haccepts e f (List.mem_cons_of_mem _ hmem)
        · -- what is known now was known before, or comes from the first slot
          intro name k k' hk hmem
          have hmem := List.mem_cons_of_mem (expected, found) hmem
          rcases get?_of_matchSlot_eq hu hk with hk | ⟨rfl, rfl⟩
          · exact hknown name k k' hk hmem
          · exact hagree name found k' List.mem_cons_self hmem
        · intro name k k' hmem hmem'
          exact hagree name k k' (List.mem_cons_of_mem _ hmem) (List.mem_cons_of_mem _ hmem')
      refine ⟨t, ?_⟩
      rw [matchSlots, hu]
      exact ht

theorem apply_of_ne_param (s : Substitution) {k : Kind} (h : ∀ name, k ≠ .param name) :
    s.apply k = k := by
  cases k with
  | param name => exact absurd rfl (h name)
  | _ => rfl

end Substitution

theorem matchArgs_eq_some {args stack : List Kind} {s : Substitution} :
    matchArgs args stack = some s ↔ args.length ≤ stack.length ∧
      Substitution.matchSlots [] args (topKinds stack args.length) = some s := by
  unfold matchArgs
  split
  · constructor
    · simp
    · rintro ⟨hle, -⟩
      omega
  · constructor
    · intro h
      exact ⟨by omega, h⟩
    · exact And.right

theorem exists_kind_of_matchArgs {args stack : List Kind} {s : Substitution}
    (h : matchArgs args stack = some s) {m : Nat} {name : String}
    (hm : args[m]? = some (.param name)) :
    ∃ k, (topKinds stack args.length)[m]? = some k ∧ s.get? name = some k := by
  obtain ⟨hle, h⟩ := matchArgs_eq_some.mp h
  have hlt : m < (topKinds stack args.length).length := by
    rw [length_topKinds hle]
    exact (List.getElem?_eq_some_iff.mp hm).1
  have hfound := List.getElem?_eq_getElem hlt
  have hpair : (args.zip (topKinds stack args.length))[m]? =
      some (.param name, (topKinds stack args.length)[m]) :=
    List.getElem?_zip_eq_some.mpr ⟨hm, hfound⟩
  exact ⟨_, hfound, Substitution.get?_of_matchSlots h (List.mem_of_getElem? hpair)⟩

/-- The slots `args` can hold `kinds`: each accepts its kind, and a parameter has one kind only. -/
structure Fillable (args kinds : List Kind) : Prop where
  accepts : ∀ (i : Nat) (expected found : Kind), args[i]? = some expected →
    kinds[i]? = some found → expected.accepts found = true
  agree : ∀ (i j : Nat) (name : String), args[i]? = some (.param name) →
    args[j]? = some (.param name) → kinds[i]? = kinds[j]?

/-- The substitution has the parameters of `args`, each once and with the kind in its slots. -/
structure Substitution.Solves (s : Substitution) (args kinds : List Kind) : Prop where
  nodup : (s.map (·.1)).Nodup
  keys : ∀ name, name ∈ s.map (·.1) ↔ .param name ∈ args
  slots : ∀ (i : Nat) (name : String), args[i]? = some (.param name) → s.get? name = kinds[i]?

theorem Fillable.of_matchArgs {args stack : List Kind} {s : Substitution}
    (h : matchArgs args stack = some s) : Fillable args (topKinds stack args.length) := by
  constructor
  · intro i expected found hexpected hfound
    apply Substitution.accepts_of_matchSlots (matchArgs_eq_some.mp h).2
    exact List.mem_of_getElem? (List.getElem?_zip_eq_some.mpr ⟨hexpected, hfound⟩)
  · intro i j name hi hj
    obtain ⟨k, hk, hname⟩ := exists_kind_of_matchArgs h hi
    obtain ⟨k', hk', hname'⟩ := exists_kind_of_matchArgs h hj
    rw [hk, hk', ← hname, hname']

theorem Fillable.exists_matchArgs {args stack : List Kind} (hle : args.length ≤ stack.length)
    (h : Fillable args (topKinds stack args.length)) : ∃ s, matchArgs args stack = some s := by
  have hzip : ∀ {expected found : Kind},
      (expected, found) ∈ args.zip (topKinds stack args.length) →
        ∃ i : Nat, args[i]? = some expected ∧ (topKinds stack args.length)[i]? = some found := by
    intro expected found hmem
    obtain ⟨i, hi⟩ := List.getElem?_of_mem hmem
    exact ⟨i, List.getElem?_zip_eq_some.mp hi⟩
  obtain ⟨s, hs⟩ : ∃ s, Substitution.matchSlots [] args (topKinds stack args.length) = some s := by
    apply Substitution.exists_matchSlots
    · intro expected found hmem
      obtain ⟨i, hi, hi'⟩ := hzip hmem
      exact h.accepts i expected found hi hi'
    · intro name k k' hk
      simp [Substitution.get?] at hk
    · intro name k k' hmem hmem'
      obtain ⟨i, hi, hk⟩ := hzip hmem
      obtain ⟨j, hj, hk'⟩ := hzip hmem'
      have hsame := h.agree i j name hi hj
      rw [hk, hk'] at hsame
      exact Option.some.inj hsame
  exact ⟨s, matchArgs_eq_some.mpr ⟨hle, hs⟩⟩

namespace Substitution

theorem solves_of_matchArgs {args stack : List Kind} {s : Substitution}
    (h : matchArgs args stack = some s) : s.Solves args (topKinds stack args.length) := by
  obtain ⟨-, hslots⟩ := matchArgs_eq_some.mp h
  refine ⟨nodup_of_matchSlots hslots List.nodup_nil, ?_, ?_⟩
  · intro name
    rw [← isSome_get?, Option.isSome_iff_exists]
    constructor
    · rintro ⟨k, hk⟩
      rcases mem_zip_of_get? hslots hk with hnil | hmem
      · simp [get?] at hnil
      · exact (List.of_mem_zip hmem).1
    · intro hmem
      obtain ⟨i, hi⟩ := List.getElem?_of_mem hmem
      obtain ⟨k, -, hk⟩ := exists_kind_of_matchArgs h hi
      exact ⟨k, hk⟩
  · intro i name hi
    obtain ⟨k, hk, hname⟩ := exists_kind_of_matchArgs h hi
    rw [hk, hname]

theorem Solves.get?_eq {s s' : Substitution} {args kinds : List Kind} (h : s.Solves args kinds)
    (h' : s'.Solves args kinds) (name : String) : s'.get? name = s.get? name := by
  by_cases hmem : .param name ∈ args
  · obtain ⟨i, hi⟩ := List.getElem?_of_mem hmem
    rw [h.slots i name hi, h'.slots i name hi]
  · rw [get?_eq_none.mpr (mt (h.keys name).mp hmem), get?_eq_none.mpr (mt (h'.keys name).mp hmem)]

theorem Solves.apply_param {s : Substitution} {args kinds : List Kind} (h : s.Solves args kinds)
    {i : Nat} {name : String} (hi : args[i]? = some (.param name)) {k : Kind}
    (hk : kinds[i]? = some k) : s.apply (.param name) = k := by
  rw [apply, h.slots i name hi, hk]
  rfl

end Substitution

/--
Arguments match the top of a stack just if they can hold it. The substitution that is found has
their type parameters, each with its kind there, and is the only one of this sort. So it turns the
arguments into the kinds that fill them, and results into kinds that were declared or that were on
the stack.
-/
theorem matching_finds_the_only_substitution (args stack : List Kind) :
    ((∃ s, matchArgs args stack = some s) ↔
      args.length ≤ stack.length ∧ Fillable args (topKinds stack args.length)) ∧
    ∀ s, matchArgs args stack = some s →
      s.Solves args (topKinds stack args.length) ∧
      (∀ s' : Substitution, s'.Solves args (topKinds stack args.length) →
        ∀ name, s'.get? name = s.get? name) ∧
      (∀ (i : Nat) (name : String), args[i]? = some (.param name) →
        (s.applyAll args)[i]? = (topKinds stack args.length)[i]?) ∧
      ∀ rets : List Kind, (∀ name, .param name ∈ rets → .param name ∈ args) →
        ∀ (i : Nat) (k : Kind), (s.applyAll rets)[i]? = some k →
          (rets[i]? = some k ∧ ∀ name, k ≠ .param name) ∨ k ∈ topKinds stack args.length := by
  refine ⟨⟨?_, ?_⟩, ?_⟩
  · rintro ⟨s, hs⟩
    exact ⟨length_le_of_matchArgs hs, Fillable.of_matchArgs hs⟩
  · rintro ⟨hle, hfill⟩
    exact hfill.exists_matchArgs hle
  · intro s hs
    have hsolves := Substitution.solves_of_matchArgs hs
    refine ⟨hsolves, fun s' hs' => hsolves.get?_eq hs', ?_, ?_⟩
    · intro i name hi
      obtain ⟨k, hk, -⟩ := exists_kind_of_matchArgs hs hi
      rw [Substitution.applyAll, List.getElem?_map, hi, Option.map_some,
        hsolves.apply_param hi hk, hk]
    · intro rets hrets i k hk
      rw [Substitution.applyAll, List.getElem?_map, Option.map_eq_some_iff] at hk
      obtain ⟨declared, hdeclared, rfl⟩ := hk
      by_cases hparam : ∃ name, declared = .param name
      · obtain ⟨name, rfl⟩ := hparam
        obtain ⟨j, hj⟩ := List.getElem?_of_mem (hrets name (List.mem_of_getElem? hdeclared))
        obtain ⟨k, hk, -⟩ := exists_kind_of_matchArgs hs hj
        rw [hsolves.apply_param hj hk]
        exact Or.inr (List.mem_of_getElem? hk)
      · have hne := not_exists.mp hparam
        rw [s.apply_of_ne_param hne]
        exact Or.inl ⟨hdeclared, hne⟩

theorem matching_finds_the_only_substitution_twice :
    ∃ s, matchArgs [.param "a", .int, .param "a"] [.str, .param "t", .any, .param "t"] = some s ∧
      s.Solves [.param "a", .int, .param "a"] [.param "t", .any, .param "t"] ∧
      ∀ (i : Nat) (k : Kind), (s.applyAll [.bool, .param "a"])[i]? = some k →
        ([Kind.bool, .param "a"][i]? = some k ∧ ∀ name, k ≠ .param name) ∨
          k ∈ [Kind.param "t", .any, .param "t"] := by
  have hmatch : matchArgs [.param "a", .int, .param "a"] [.str, .param "t", .any, .param "t"] =
      some [("a", .param "t")] := by
    decide
  obtain ⟨hsolves, -, -, hrets⟩ := (matching_finds_the_only_substitution _ _).2 _ hmatch
  exact ⟨_, hmatch, hsolves, hrets [.bool, .param "a"] (by simp)⟩

end StackLang
