import Mathlib.Data.List.Nodup
import StackLang.Proofs.Discovery
import StackLang.Proofs.Linked

/-!
This module contains the tables of a program that has been read: every name is declared as one thing
only, a string is kept once, and code refers to nothing that the tables do not have.
-/

namespace StackLang

namespace Declaration

inductive Adds (p : Program) : Program → Prop
  | nothing : Adds p p
  | constant (c : Constant) (hname : globalNameFault? p c.name = none) :
    Adds p { p with constants := p.constants ++ [c] }
  | memory (m : Memory) (hname : globalNameFault? p m.name = none) (hsize : 1 ≤ m.size) :
    Adds p { p with memories := p.memories ++ [m] }
  | function (f : Function) (strings : List String)
    (hname : functionNameFault? p f.name f.overload = none)
    (hstrings : p.strings.Nodup → strings.Nodup) :
    Adds p { p with functions := p.functions ++ [f], strings }

end Declaration

theorem nodup_intern {strings : List String} (h : strings.Nodup) (s : String) :
    (intern strings s).2.Nodup := by
  unfold intern
  split
  · exact h
  · next hnone =>
    rw [← List.concat_eq_append]
    apply h.concat
    intro hmem
    rw [List.findIdx?_eq_none_iff] at hnone
    simpa using hnone s hmem

namespace Body

theorem kept_strings_read (inv : List String → Prop)
    (hinv : ∀ (strings : List String) (s : String), inv strings → inv (intern strings s).2)
    {ctx : Enclosing} {b : Body} (h : inv b.strings) (ts : List Lexeme) :
    inv (read ctx b ts).1.strings := by
  obtain ⟨_, b', _, hgrows, hread, -⟩ := Grows.refl.read (b := b) ts
  rw [hread]
  clear hread
  induction hgrows with
  | refl => exact h
  | fault _ _ _ ih | blocks _ _ ih | emit _ _ _ _ ih | patch _ _ _ ih => exact ih
  | string _ _ s ih => exact hinv _ s ih
  | bind _ loc hnames ih =>
    rw [bind_of_ne_nil _ loc hnames]
    exact ih

end Body

namespace Declaration

variable {p : Program}

theorem adds_const {stop : Location} {ts : List Lexeme}
    (h : Faultless (const p stop ts).reports) : Adds p (const p stop ts).program := by
  unfold const at h ⊢
  split at h
  · exact absurd h (not_faultless_failed _ _ _)
  · next name loc _ =>
    split at h
    · exact absurd h (not_faultless_failed _ _ _)
    · next value rest _ =>
      split at h
      · exact absurd h (by simp [Faultless])
      · next hname => exact Adds.constant ⟨name, value, loc⟩ hname

theorem adds_var {stop : Location} {ts : List Lexeme}
    (h : Faultless (var p stop ts).reports) : Adds p (var p stop ts).program := by
  unfold var at h ⊢
  split at h
  · exact absurd h (not_faultless_failed _ _ _)
  · next name loc _ =>
    simp only at h ⊢
    split at h
    · exact absurd h (not_faultless_failed _ _ _)
    · next n _ =>
      split at h
      · exact absurd h (by simp [Faultless])
      · next hpositive =>
        rw [if_neg hpositive]
        split at h
        · exact absurd h (by simp [Faultless])
        · next hname =>
          apply Adds.memory ⟨name, n.toInt.toNat, loc⟩ hname
          simp only
          omega

theorem adds_usingFile (stop : Location) (ts : List Lexeme) :
    Adds p (usingFile p stop ts).program := by
  unfold usingFile
  simp only
  split <;> exact Adds.nothing

theorem adds_withBody {f : Function} {faults : List SyntaxError} {stop : Location}
    {ts : List Lexeme} (hname : faults = [] → functionNameFault? p f.name f.overload = none)
    (h : Faultless (withBody p f faults stop ts).reports) :
    Adds p (withBody p f faults stop ts).program := by
  unfold withBody at h ⊢
  split at h
  · next us =>
    simp only [faultless_map_fault, List.append_eq_nil_iff] at h
    refine Adds.function { f with code := _, bindings := _ } _ (hname h.1) ?_
    intro hnodup
    exact Body.kept_strings_read List.Nodup (fun _ s h => nodup_intern h s) hnodup us
  · simp only [faultless_map_fault] at h
    simp at h

theorem adds_function {internal overload : Bool} {stop : Location} {ts : List Lexeme}
    (h : Faultless (function p internal overload stop ts).reports) :
    Adds p (function p internal overload stop ts).program := by
  unfold function at h ⊢
  split at h
  · exact absurd h (not_faultless_failed _ _ _)
  · next name loc _ =>
    apply adds_withBody _ h
    intro hnone
    simpa using (List.append_eq_nil_iff.mp (List.append_eq_nil_iff.mp hnone).1).1

theorem adds_read {internal : Bool} {stop : Location} {t : Lexeme} {ts : List Lexeme}
    (h : Faultless (read p internal stop t ts).reports) :
    Adds p (read p internal stop t ts).program := by
  unfold read at h ⊢
  split at h
  · exact adds_function h
  · exact adds_function h
  · exact adds_const h
  · exact adds_var h
  · exact adds_usingFile stop ts
  · exact absurd h (not_faultless_failed _ _ _)

end Declaration

section

open Declaration (Faultless Adds)

structure Program.Kept (inv : Program → Prop) : Prop where
  empty : inv {}
  adds : ∀ {p p' : Program}, inv p → Adds p p' → inv p'

variable {inv : Program → Prop} (hinv : Program.Kept inv)
include hinv

theorem Declaration.kept_readAll {internal : Bool} {stop : Location} {p : Program}
    {ts : List Lexeme} (h : inv p) (hok : Faultless (readAll internal stop p ts).2) :
    inv (readAll internal stop p ts).1 := by
  fun_induction readAll internal stop p ts with
  | case1 p => exact h
  | case2 p t ts one q reports hrest ih =>
    rw [faultless_append] at hok
    simp only [hrest] at ih
    exact ih (hinv.adds h (adds_read hok.1)) hok.2

theorem SourceUnit.kept_read {u : SourceUnit} {p : Program} (h : inv p)
    (hok : Faultless (u.read p).2) : inv (u.read p).1 := by
  unfold SourceUnit.read at hok ⊢
  split
  · exact h
  · next hstream =>
    simp only [hstream] at hok
    exact Declaration.kept_readAll hinv h hok

theorem Front.Reads.kept {loader : Loader} {f g : Front} {units : List SourceUnit}
    (h : Front.Reads loader f units g) (herrors : g.errors = []) (hf : inv f.program) :
    inv g.program := by
  induction h with
  | done hqueue => exact hf
  | read hqueue hrest ih =>
    apply ih herrors
    rw [Front.step]
    simp only
    rw [program_foldl_settle]
    exact SourceUnit.kept_read hinv hf (errors_of_step (hrest.errors herrors)).2

theorem kept_of_parse {loader : Loader} {entry : String} {options : Options} {p : Program}
    (h : parse loader entry options = .ok p) : inv p := by
  obtain ⟨start, units, g, -, hunits, herrors, rfl⟩ := Front.exists_reads_of_parse h
  apply hunits.kept hinv herrors
  rw [Front.program_initial]
  exact hinv.empty

end

/-- Tables in which a name is declared as one thing only, by one declaration or by overloads. -/
structure Program.Tables (p : Program) : Prop where
  constants : (p.constants.map (·.name)).Nodup
  memories : (p.memories.map (·.name)).Nodup
  constants_memories : List.Disjoint (p.constants.map (·.name)) (p.memories.map (·.name))
  constants_functions : List.Disjoint (p.constants.map (·.name)) (p.functions.map (·.name))
  memories_functions : List.Disjoint (p.memories.map (·.name)) (p.functions.map (·.name))
  /-- Of two functions with one name, both are overloads and neither is `main`. -/
  functions : p.functions.Pairwise fun f g => f.name = g.name →
    f.name ≠ "main" ∧ f.overload = true ∧ g.overload = true
  strings : p.strings.Nodup
  sizes : ∀ m ∈ p.memories, 1 ≤ m.size

namespace Declaration

variable {p : Program} {name : String}

theorem not_mem_of_takenName? (h : takenName? p name = none) :
    name ∉ p.constants.map (·.name) ∧ name ∉ p.memories.map (·.name) := by
  unfold takenName? at h
  split at h
  · simp at h
  · next hconstants =>
    split at h
    · simp at h
    · next hmemories => simp_all [List.find?_eq_none]

theorem not_mem_of_globalNameFault? (h : globalNameFault? p name = none) :
    name ∉ p.constants.map (·.name) ∧ name ∉ p.memories.map (·.name) ∧
      name ∉ p.functions.map (·.name) := by
  unfold globalNameFault? at h
  split at h
  · simp at h
  · next hfunctions =>
    obtain ⟨hconstants, hmemories⟩ := not_mem_of_takenName? h
    refine ⟨hconstants, hmemories, ?_⟩
    simpa using hfunctions

theorem of_functionNameFault? {overload : Bool} (h : functionNameFault? p name overload = none) :
    name ∉ p.constants.map (·.name) ∧ name ∉ p.memories.map (·.name) ∧
      ∀ f ∈ p.functions, f.name = name → name ≠ "main" ∧ f.overload = true ∧ overload = true := by
  unfold functionNameFault? at h
  split at h
  · simp at h
  · next htaken =>
    obtain ⟨hconstants, hmemories⟩ := not_mem_of_takenName? htaken
    refine ⟨hconstants, hmemories, ?_⟩
    intro f hf hname
    have hmem : f ∈ p.functions.filter (·.name = name) := by simp [hf, hname]
    split at h
    · next hnil => simp [hnil] at hmem
    · next first others hsame =>
      rw [hsame] at hmem
      split at h
      · simp at h
      · next hmain =>
        split at h
        · next hall =>
          rw [Bool.and_eq_true, List.all_eq_true] at hall
          exact ⟨hmain, hall.2 f hmem, hall.1⟩
        · simp at h

end Declaration

theorem Program.Tables.adds {p p' : Program} (h : p.Tables) (hadds : Declaration.Adds p p') :
    p'.Tables := by
  cases hadds with
  | nothing => exact h
  | constant c hname =>
    obtain ⟨hconstants, hmemories, hfunctions⟩ := Declaration.not_mem_of_globalNameFault? hname
    refine ⟨?_, h.memories, ?_, ?_, h.memories_functions, h.functions, h.strings, h.sizes⟩
    · rw [List.map_append, List.map_singleton, ← List.concat_eq_append]
      exact h.constants.concat hconstants
    · rw [List.map_append, List.disjoint_append_left, List.map_singleton, List.singleton_disjoint]
      exact ⟨h.constants_memories, hmemories⟩
    · rw [List.map_append, List.disjoint_append_left, List.map_singleton, List.singleton_disjoint]
      exact ⟨h.constants_functions, hfunctions⟩
  | memory m hname hsize =>
    obtain ⟨hconstants, hmemories, hfunctions⟩ := Declaration.not_mem_of_globalNameFault? hname
    refine ⟨h.constants, ?_, ?_, h.constants_functions, ?_, h.functions, h.strings, ?_⟩
    · rw [List.map_append, List.map_singleton, ← List.concat_eq_append]
      exact h.memories.concat hmemories
    · rw [List.map_append, List.disjoint_append_right, List.map_singleton, List.disjoint_singleton]
      exact ⟨h.constants_memories, hconstants⟩
    · rw [List.map_append, List.disjoint_append_left, List.map_singleton, List.singleton_disjoint]
      exact ⟨h.memories_functions, hfunctions⟩
    · rw [List.forall_mem_append]
      exact ⟨h.sizes, by simpa using hsize⟩
  | function f strings hname hstrings =>
    obtain ⟨hconstants, hmemories, hfunctions⟩ := Declaration.of_functionNameFault? hname
    refine ⟨h.constants, h.memories, h.constants_memories, ?_, ?_, ?_, hstrings h.strings, h.sizes⟩
    · rw [List.map_append, List.disjoint_append_right, List.map_singleton, List.disjoint_singleton]
      exact ⟨h.constants_functions, hconstants⟩
    · rw [List.map_append, List.disjoint_append_right, List.map_singleton, List.disjoint_singleton]
      exact ⟨h.memories_functions, hmemories⟩
    · rw [List.pairwise_append]
      refine ⟨h.functions, List.pairwise_singleton _ _, ?_⟩
      intro g hg f' hf' heq
      rw [List.mem_singleton.mp hf'] at heq ⊢
      rw [heq]
      exact hfunctions g hg heq

theorem Program.kept_tables : Kept Program.Tables where
  empty := by constructor <;> simp
  adds := Tables.adds

def Op.Within (p : Program) : Op → Prop
  | pushStr index => index < p.strings.length
  | pushPtr index => index < p.memories.length
  | word name => ∃ f ∈ p.functions, f.name = name
  | call _ => False
  | cast kind => kind ∈ [.int, .bool, .byte, .ptr, .str, .any]
  | syscall arity => arity.toNat ≤ 6
  | _ => True

theorem TypeName.mem_kinds (t : TypeName) :
    t.kind ∈ ([.int, .bool, .byte, .ptr, .str, .any] : List Kind) := by
  cases t <;> decide

theorem ReadCode.emitted {code : List Instruction} {bindings : List Binding}
    (h : ReadCode code bindings) {i : Instruction} (hi : i ∈ code) :
    i.op.Emitted ∨ i.op = .unbind bindings.length := by
  obtain ⟨body, ending, rfl, -, htidy, hending⟩ := h.split
  rcases List.mem_append.mp hi with hi | hi
  · exact Or.inl (htidy.emitted i hi)
  · rcases hending with ⟨rfl, -⟩ | ⟨loc, rfl, -⟩
    · simp at hi
    · rw [List.mem_singleton.mp hi]
      exact Or.inr rfl

theorem Op.within {p : Program} {op : Op} {bindings : List Binding}
    (hemitted : op.Emitted ∨ op = .unbind bindings.length)
    (hlinked : op.Linked p.strings.length p.memories.length)
    (hword : ∀ name, op = .word name → p.candidates name ≠ []) : op.Within p := by
  rcases hemitted with hemitted | rfl
  · cases op with
    | pushStr index | pushPtr index => exact hlinked
    | word name =>
      obtain ⟨entry, hentry⟩ := List.exists_mem_of_ne_nil _ (hword name rfl)
      obtain ⟨f, hf, -⟩ := List.mem_map.mp hentry
      rw [List.mem_filter] at hf
      exact ⟨f, hf.1, by simpa using hf.2⟩
    | call entry => exact hemitted
    | cast kind =>
      obtain ⟨t, rfl⟩ := hemitted
      exact t.mem_kinds
    | syscall arity => exact hemitted
    | _ => trivial
  · trivial

/--
A program that has been read declares each of its names as one thing, keeps every string once, and
its code refers to strings, memory regions and functions that it has. No function has been chosen
for a call yet.
-/
theorem read_programs_have_sound_tables {loader : Loader} {entry : String} {options : Options}
    {p : Program} (hparse : parse loader entry options = .ok p) :
    p.Tables ∧ ∀ f ∈ p.functions, ∀ i ∈ f.code, i.op.Within p := by
  obtain ⟨hread, hwords⟩ := wellRead_of_parse hparse
  refine ⟨kept_of_parse Program.kept_tables hparse, ?_⟩
  intro f hf i hi
  obtain ⟨n, hn⟩ := List.getElem?_of_mem hf
  apply Op.within ((hread n f hn).code.emitted hi)
  · exact (linked_of_parse hparse).code f hf i hi
  · exact hwords f hf i hi

def labels : SourceTable :=
  SourceTable.ofList [
    ("main", "using show const SIZE 8 var cell SIZE
      fn main ( 1 cell store cell load show \"a\" show \"a\" cast ptr load show )"),
    ("show", "fn* show int ( drop ) fn* show str ( drop )")]

theorem read_programs_have_sound_tables_labels : ∃ p,
    parse labels.loader "main" { library := false } = .ok p ∧
      p.constants.map (·.name) = ["SIZE"] ∧ p.memories.map (·.name) = ["cell"] ∧
      p.functions.map (·.name) = ["main", "show", "show"] ∧ p.strings = ["a"] ∧
      p.Tables ∧ ∀ f ∈ p.functions, ∀ i ∈ f.code, i.op.Within p := by
  have hnames : (parse labels.loader "main" { library := false }).toOption.map (fun p =>
      (p.constants.map (·.name), p.memories.map (·.name), p.functions.map (·.name), p.strings)) =
      some (["SIZE"], ["cell"], ["main", "show", "show"], ["a"]) := by
    decide +kernel
  cases hparse : parse labels.loader "main" { library := false } with
  | error e => simp [hparse, Except.toOption] at hnames
  | ok p =>
    simp only [hparse, Except.toOption, Option.map_some, Option.some.injEq, Prod.mk.injEq]
      at hnames
    obtain ⟨hconstants, hmemories, hfunctions, hstrings⟩ := hnames
    exact ⟨p, rfl, hconstants, hmemories, hfunctions, hstrings,
      read_programs_have_sound_tables hparse⟩

end StackLang
