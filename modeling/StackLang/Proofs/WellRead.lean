import StackLang.Compile
import StackLang.Proofs.Reading

/-!
This module contains what reading all the sources of a program without a fault produces: functions
whose entries are their positions, whose signatures name kinds, whose code is nested, and whose
words all name some function.
-/

namespace StackLang

def Kind.isDeclared : Kind → Bool
  | untyped | variadic => false
  | _ => true

structure Function.WellRead (f : Function) (position : Nat) : Prop where
  entry : f.entry = position
  args : ∀ k ∈ f.args, k.isDeclared = true
  rets : ∀ k ∈ f.rets, k.isDeclared = true
  code : ReadCode f.code f.bindings

def WellReadFunctions (functions : List Function) : Prop :=
  ∀ (i : Nat) (f : Function), functions[i]? = some f → f.WellRead i

theorem WellReadFunctions.append {functions : List Function} {f : Function}
    (h : WellReadFunctions functions) (hf : f.WellRead functions.length) :
    WellReadFunctions (functions ++ [f]) := by
  intro i g hg
  rcases Nat.lt_trichotomy i functions.length with hlt | heq | hgt
  · rw [List.getElem?_append_left hlt] at hg
    exact h i g hg
  · subst heq
    simp only [List.getElem?_concat_length, Option.some.injEq] at hg
    subst hg
    exact hf
  · rw [List.getElem?_eq_none (by simp only [List.length_append, List.length_singleton]; omega)]
      at hg
    exact absurd hg (by simp)

def Program.WordsKnown (p : Program) : Prop :=
  ∀ f ∈ p.functions, ∀ i ∈ f.code, ∀ name, i.op = .word name → p.candidates name ≠ []

namespace Declaration

def Faultless (reports : List Report) : Prop := ∀ e, Report.fault e ∉ reports

theorem faultless_append {a b : List Report} :
    Faultless (a ++ b) ↔ Faultless a ∧ Faultless b := by
  simp only [Faultless, List.mem_append, not_or, forall_and]

theorem faultless_map_fault {errors : List SyntaxError} :
    Faultless (errors.map Report.fault) ↔ errors = [] := by
  constructor
  · intro h
    cases errors with
    | nil => rfl
    | cons e es => exact absurd (List.mem_map_of_mem List.mem_cons_self) (h e)
  · intro h
    subst h
    simp [Faultless]

theorem not_faultless_failed (p : Program) (e : SyntaxError) (ts : List Lexeme) :
    ¬ Faultless (failed p e ts).reports := by
  intro h
  exact h e (by simp [failed])

theorem functions_const (p : Program) (stop : Location) (ts : List Lexeme) :
    (const p stop ts).program.functions = p.functions := by
  unfold const
  split
  · rfl
  · split
    · rfl
    · split
      · rfl
      · rfl

theorem functions_var (p : Program) (stop : Location) (ts : List Lexeme) :
    (var p stop ts).program.functions = p.functions := by
  unfold var
  split
  · rfl
  · simp only
    split
    · rfl
    · split
      · rfl
      · split
        · rfl
        · rfl

theorem functions_usingFile (p : Program) (stop : Location) (ts : List Lexeme) :
    (usingFile p stop ts).program.functions = p.functions := by
  unfold usingFile
  simp only
  split
  · rfl
  · rfl
  · rfl

theorem isDeclared_of_mem_kinds {ts : List Lexeme} {k : Kind} (h : k ∈ kinds ts) :
    k.isDeclared = true := by
  obtain ⟨t, -, ht⟩ := List.mem_filterMap.mp h
  unfold Token.kind? at ht
  split at ht
  · next ty _ =>
    simp only [Option.some.injEq] at ht
    subst ht
    cases ty <;> rfl
  · simp only [Option.some.injEq] at ht
    subst ht
    rfl
  · simp at ht

theorem wellRead_withBody {p : Program} {f : Function} {faults : List SyntaxError}
    {stop : Location} {ts : List Lexeme} (h : WellReadFunctions p.functions)
    (hentry : f.entry = p.functions.length) (hargs : ∀ k ∈ f.args, k.isDeclared = true)
    (hrets : ∀ k ∈ f.rets, k.isDeclared = true)
    (hok : Faultless (withBody p f faults stop ts).reports) :
    WellReadFunctions (withBody p f faults stop ts).program.functions := by
  unfold withBody at hok ⊢
  split at hok
  · simp only [faultless_map_fault, List.append_eq_nil_iff, Body.reportOpen] at hok
    apply h.append
    exact ⟨hentry, hargs, hrets, Body.readCode hok.2.1⟩
  · simp only [faultless_map_fault] at hok
    simp at hok

theorem wellRead_function {p : Program} {internal overload : Bool} {stop : Location}
    {ts : List Lexeme} (h : WellReadFunctions p.functions)
    (hok : Faultless (function p internal overload stop ts).reports) :
    WellReadFunctions (function p internal overload stop ts).program.functions := by
  unfold function at hok ⊢
  split at hok
  · exact absurd hok (not_faultless_failed _ _ _)
  · apply wellRead_withBody h rfl _ _ hok
    · intro k hk
      exact isDeclared_of_mem_kinds hk
    · intro k hk
      exact isDeclared_of_mem_kinds hk

theorem wellRead_read {p : Program} {internal : Bool} {stop : Location} {t : Lexeme}
    {ts : List Lexeme} (h : WellReadFunctions p.functions)
    (hok : Faultless (read p internal stop t ts).reports) :
    WellReadFunctions (read p internal stop t ts).program.functions := by
  unfold read at hok ⊢
  split at hok
  · exact wellRead_function h hok
  · exact wellRead_function h hok
  · rw [functions_const]
    exact h
  · rw [functions_var]
    exact h
  · rw [functions_usingFile]
    exact h
  · exact absurd hok (not_faultless_failed _ _ _)

theorem wellRead_readAll {internal : Bool} {stop : Location} {p : Program} {ts : List Lexeme}
    (h : WellReadFunctions p.functions) (hok : Faultless (readAll internal stop p ts).2) :
    WellReadFunctions (readAll internal stop p ts).1.functions := by
  fun_induction readAll internal stop p ts with
  | case1 p => exact h
  | case2 p t ts one q reports hrest ih =>
    simp only [faultless_append] at hok
    rw [hrest] at ih
    exact ih (wellRead_read h hok.1) hok.2

end Declaration

open Declaration (Faultless)

theorem SourceUnit.wellRead_read {u : SourceUnit} {p : Program}
    (h : WellReadFunctions p.functions) (hok : Faultless (u.read p).2) :
    WellReadFunctions (u.read p).1.functions := by
  unfold SourceUnit.read at hok ⊢
  split
  · exact h
  · next hstream =>
    simp only [hstream] at hok
    exact Declaration.wellRead_readAll h hok

namespace Front

def Sound (f : Front) : Prop := f.errors = [] → WellReadFunctions f.program.functions

theorem program_accept (f : Front) (loc : Location) (r : Except SourceError SourceUnit) :
    (f.accept loc r).program = f.program := by
  cases r with
  | error e => rfl
  | ok u =>
    simp only [accept, enqueue]
    split
    · rfl
    · rfl

theorem program_settle (fetch : String → Except SourceError SourceUnit) (f : Front) (r : Report) :
    (settle fetch f r).program = f.program := by
  cases r with
  | fault e => rfl
  | use loc name => apply program_accept

theorem program_foldl_settle (fetch : String → Except SourceError SourceUnit) (f : Front)
    (reports : List Report) : (reports.foldl (settle fetch) f).program = f.program := by
  induction reports generalizing f with
  | nil => rfl
  | cons r rs ih =>
    rw [List.foldl_cons, ih]
    apply program_settle

theorem errors_of_settle {fetch : String → Except SourceError SourceUnit} {f : Front} {r : Report}
    (h : (settle fetch f r).errors = []) : f.errors = [] ∧ ∀ e, r ≠ .fault e := by
  cases r with
  | fault e => simp [settle] at h
  | use loc name =>
    refine ⟨?_, by simp⟩
    simp only [settle] at h
    cases hfetch : fetch name with
    | error e => simp [hfetch, accept] at h
    | ok u =>
      simp only [hfetch, accept, enqueue] at h
      split at h
      · exact h
      · exact h

theorem errors_of_foldl_settle {fetch : String → Except SourceError SourceUnit} {f : Front}
    {reports : List Report} (h : (reports.foldl (settle fetch) f).errors = []) :
    f.errors = [] ∧ Faultless reports := by
  induction reports generalizing f with
  | nil => exact ⟨h, by simp [Faultless]⟩
  | cons r rs ih =>
    obtain ⟨hsettle, hrs⟩ := ih h
    obtain ⟨hf, hr⟩ := errors_of_settle hsettle
    refine ⟨hf, ?_⟩
    intro e he
    rcases List.mem_cons.mp he with he | he
    · exact hr e he.symm
    · exact hrs e he

theorem Sound.step {loader : Loader} {f : Front} {u : SourceUnit} (h : f.Sound) :
    (step loader f u).Sound := by
  intro herrors
  unfold Front.step at herrors ⊢
  rw [program_foldl_settle]
  obtain ⟨hf, hok⟩ := errors_of_foldl_settle herrors
  exact SourceUnit.wellRead_read (h hf) hok

theorem Sound.run {loader : Loader} {f : Front} (h : f.Sound) : (run loader f).Sound := by
  fun_induction Front.run loader f with
  | case1 f hqueue => exact h
  | case2 f u us hqueue hlt ih =>
    apply ih
    apply Sound.step
    exact h

theorem queue_initial (library : Bool) (u : SourceUnit) :
    (initial library u).queue = (if library then [Source.library] else []) ++ [u] := by
  cases library <;> simp [initial, enqueue]

theorem program_initial (library : Bool) (u : SourceUnit) : (initial library u).program = {} := by
  cases library <;> simp [initial, enqueue]

theorem errors_initial (library : Bool) (u : SourceUnit) : (initial library u).errors = [] := by
  cases library <;> simp [initial, enqueue]

theorem Sound.initial (library : Bool) (start : SourceUnit) : (initial library start).Sound := by
  intro _ i g hg
  cases library <;> simp [Front.initial, enqueue] at hg

theorem wordsKnown_of_unknownWords {p : Program} (h : unknownWords p = []) : p.WordsKnown := by
  intro f hf i hi name hname hnone
  have hcode := List.flatMap_eq_nil_iff.mp h f hf
  have := List.filterMap_eq_nil_iff.mp hcode i hi
  simp [hname, hnone] at this

end Front

theorem Program.wellRead_of_read {loader : Loader} {library : Bool} {entry : String} {p : Program}
    (h : Program.read loader library entry = .ok p) :
    WellReadFunctions p.functions ∧ p.WordsKnown := by
  unfold Program.read at h
  split at h
  · simp at h
  · next start _ =>
    have hsound : ((Front.initial library start).run loader).Sound := by
      apply Front.Sound.run
      apply Front.Sound.initial
    unfold Front.finish at h
    simp only at h
    split at h
    · next hempty =>
      simp only [Except.ok.injEq] at h
      subst h
      simp only [List.isEmpty_iff, List.append_eq_nil_iff] at hempty
      exact ⟨hsound hempty.1, Front.wordsKnown_of_unknownWords hempty.2⟩
    · simp at h

theorem read_of_parse {loader : Loader} {entry : String} {options : Options} {p : Program}
    (h : parse loader entry options = .ok p) :
    Program.read loader options.library entry = .ok p := by
  unfold parse at h
  cases hread : Program.read loader options.library entry with
  | error e => simp [hread, Except.mapError] at h
  | ok q =>
    simp only [hread, Except.mapError, Except.ok.injEq] at h
    rw [h]

theorem wellRead_of_parse {loader : Loader} {entry : String} {options : Options} {p : Program}
    (h : parse loader entry options = .ok p) : WellReadFunctions p.functions ∧ p.WordsKnown :=
  Program.wellRead_of_read (read_of_parse h)

end StackLang
