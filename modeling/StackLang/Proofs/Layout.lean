import StackLang.Proofs.Appended
import StackLang.Proofs.Compositional
import StackLang.Proofs.InternalErrors
import StackLang.Proofs.Relocation

/-!
This module contains what the layout of sources has an influence on. Tables of sources with the same
tokens compile to the same assembly or fail for the same reasons, whatever stands between the
tokens: only locations differ.
-/

namespace StackLang

variable (m : Location → Location)

def ValidationError.relocate : ValidationError → ValidationError
  | violation loc v => violation (m loc) v
  | missingMain => missingMain

def Diagnostic.relocate (d : Diagnostic) : Diagnostic := { d with loc := d.loc.map m }

def LoweringError.relocate : LoweringError → LoweringError
  | unresolvedWord loc name => unresolvedWord (m loc) name
  | e => e

def CompileError.relocate : CompileError → CompileError
  | parse errors => parse (errors.map (SyntaxError.relocate m))
  | validation error => validation (error.relocate m)
  | lowering error => lowering (error.relocate m)
  | e => e

def Output.relocate (o : Output) : Output :=
  { o with program := o.program.relocate m, warnings := o.warnings.map (Diagnostic.relocate m) }

theorem Function.unseen_relocate : Unseen (Function.relocate m) :=
  ⟨fun _ => rfl, fun _ => rfl, fun _ => rfl⟩

namespace Walk

def Trace.relocate (t : Trace) : Trace :=
  ⟨t.code.map (Instruction.relocate m), t.outcome.mapError fun e => (m e.1, e.2)⟩

theorem Trace.bindings_relocate (t : Trace) : (t.relocate m).bindings = t.bindings := by
  rcases t with ⟨code, outcome⟩
  cases outcome <;> rfl

theorem run_relocate (functions : List Function) (w : Walk) (code : List Instruction) :
    run functions w (code.map (Instruction.relocate m)) = (run functions w code).relocate m := by
  induction code generalizing w with
  | nil => rfl
  | cons i rest ih =>
    have hop : (i.relocate m).op = i.op := rfl
    simp only [List.map_cons, run, hop]
    cases resolve functions w.stack i.op with
    | error v => rfl
    | ok op =>
      simp only
      cases step functions w op with
      | error stop => rfl
      | ok w' =>
        simp only [ih]
        rfl

end Walk

theorem Function.verdict_relocate (f : Function) (t : Walk.Trace) :
    (f.relocate m).verdict (t.relocate m) = (f.verdict t).map (ValidationError.relocate m) := by
  rcases t with ⟨code, outcome⟩
  cases outcome with
  | error e => rfl
  | ok w =>
    have hlast : ((f.relocate m).code.getLast?.map (·.loc)).getD (f.relocate m).loc =
        m ((f.code.getLast?.map (·.loc)).getD f.loc) := by
      simp only [relocate, List.getLast?_map]
      cases f.code.getLast? <;> rfl
    have hend : w.endViolation? (f.relocate m) = w.endViolation? f := rfl
    simp only [verdict, Walk.Trace.relocate, Except.mapError, hlast, hend, Option.map_map]
    rfl

theorem Function.check_relocate (functions : List Function) (f : Function) :
    (f.relocate m).check functions =
      ((f.check functions).1.relocate m,
        (f.check functions).2.map (ValidationError.relocate m)) := by
  by_cases hmain : f.name = "main" ∧ (f.args ≠ [] ∨ f.rets ≠ [])
  · have hmain' : (f.relocate m).name = "main" ∧
      ((f.relocate m).args ≠ [] ∨ (f.relocate m).rets ≠ []) := hmain
    rw [check_of_main hmain, check_of_main hmain']
    rfl
  · have hmain' : ¬ ((f.relocate m).name = "main" ∧
      ((f.relocate m).args ≠ [] ∨ (f.relocate m).rets ≠ [])) := hmain
    have hrun : Walk.run functions (f.relocate m).start (f.relocate m).code =
        (Walk.run functions f.start f.code).relocate m :=
      Walk.run_relocate m functions f.start f.code
    rw [check_eq hmain, check_eq hmain', hrun, verdict_relocate, Walk.Trace.bindings_relocate]
    rfl

theorem checkFunctions_relocate (functions fs : List Function) :
    checkFunctions functions (fs.map (Function.relocate m)) =
      ((checkFunctions functions fs).1.map (Function.relocate m),
        (checkFunctions functions fs).2.map (ValidationError.relocate m)) := by
  induction fs with
  | nil => rfl
  | cons f fs ih =>
    simp only [List.map_cons, checkFunctions, Function.check_relocate]
    rcases f.check functions with ⟨g, e⟩
    cases e with
    | some e => rfl
    | none =>
      simp only [Option.map_none, ih]
      rfl

namespace Reach

theorem callees_relocate (f : Function) : (f.relocate m).callees = f.callees := by
  simp only [Function.callees, Function.relocate, List.filterMap_map]
  rfl

theorem mark_relocate (functions : List Function) (work : List Nat) :
    mark (functions.map (Function.relocate m)) work =
      (mark functions work).map (Function.relocate m) := by
  fun_induction mark functions work with
  | case1 functions => rw [mark]
  | case2 functions entry work hnone ih =>
    rw [mark_cons_of_none (by rw [List.getElem?_map, hnone]; rfl), ih]
  | case3 functions entry work f hget hfresh hlt ih =>
    have hget' : (functions.map (Function.relocate m))[entry]? = some (f.relocate m) := by
      rw [List.getElem?_map, hget]
      rfl
    have hfresh' : (f.relocate m).called = false := hfresh
    rw [mark_cons_of_fresh hget' hfresh', callees_relocate, ← ih, List.map_set]
    rfl
  | case4 functions entry work f hget hcalled ih =>
    have hget' : (functions.map (Function.relocate m))[entry]? = some (f.relocate m) := by
      rw [List.getElem?_map, hget]
      rfl
    have hcalled' : ¬ (f.relocate m).called = false := hcalled
    rw [mark_cons_of_marked hget' hcalled', ih]

end Reach

namespace Program

theorem main?_relocate (p : Program) :
    (p.relocate m).main? = p.main?.map (Function.relocate m) := by
  simp only [main?, relocate, List.find?_map]
  rfl

theorem markReachable_relocate (p : Program) (root : Nat) :
    (p.relocate m).markReachable root = (p.markReachable root).relocate m := by
  simp only [markReachable, relocate, List.map_map, ← Reach.mark_relocate]
  rfl

theorem unusedWarnings_relocate (p : Program) :
    (p.relocate m).unusedWarnings = p.unusedWarnings.map (Diagnostic.relocate m) := by
  simp only [unusedWarnings, relocate, List.filter_map, List.map_map]
  rfl

theorem validate_relocate (p : Program) :
    (p.relocate m).validate =
      (p.validate.1.relocate m,
        (p.validate.2.map (List.map (Diagnostic.relocate m))).mapError
          (ValidationError.relocate m)) := by
  have hcheck : checkFunctions (p.relocate m).functions (p.relocate m).functions =
      ((checkFunctions p.functions p.functions).1.map (Function.relocate m),
        (checkFunctions p.functions p.functions).2.map (ValidationError.relocate m)) := by
    simp only [relocate, checkFunctions_map (Function.unseen_relocate m), checkFunctions_relocate]
  simp only [validate, hcheck]
  rcases checkFunctions p.functions p.functions with ⟨functions, e⟩
  cases e with
  | some e => rfl
  | none =>
    have hchecked : ({ p.relocate m with functions := functions.map (Function.relocate m) } :
        Program) = ({ p with functions } : Program).relocate m := rfl
    simp only [Option.map_none, hchecked, main?_relocate]
    cases ({ p with functions } : Program).main? with
    | none => rfl
    | some main =>
      have hentry : (main.relocate m).entry = main.entry := rfl
      simp only [Option.map_some, hentry, markReachable_relocate, unusedWarnings_relocate]
      rfl

end Program

namespace Assembly

/-- A location shows only in the error for a word that no function has been chosen for. -/
theorem lowerOp_relocate (p : Program) (bound : Nat) (i : Instruction) :
    lowerOp (p.relocate m) bound (i.relocate m) =
      (lowerOp p bound i).mapError (LoweringError.relocate m) := by
  rcases i with ⟨loc, op⟩
  simp only [lowerOp, Instruction.relocate, Program.relocate, List.getElem?_map]
  cases op with
  | pushBind slot =>
    simp only
    split <;> rfl
  | syscall arity =>
    simp only
    split <;> rfl
  | call entry =>
    simp only
    cases p.functions[entry]? with
    | none => rfl
    | some callee =>
      have hcalled : (callee.relocate m).called = callee.called := rfl
      simp only [Option.map_some, hcalled]
      split <;> rfl
  | _ => rfl

theorem lowerCode_relocate (p : Program) (bound ip : Nat) (code : List Instruction) :
    lowerCode (p.relocate m) bound ip (code.map (Instruction.relocate m)) =
      (lowerCode p bound ip code).mapError (LoweringError.relocate m) := by
  induction code generalizing bound ip with
  | nil => rfl
  | cons i rest ih =>
    have hop : (i.relocate m).op = i.op := rfl
    simp only [List.map_cons, lowerCode, lowerOp_relocate, hop, ih]
    cases lowerOp p bound i with
    | error e => rfl
    | ok instrs => cases lowerCode p (boundAfter bound i.op) (ip + 1) rest <;> rfl

theorem lowerFunction_relocate (p : Program) (f : Function) :
    lowerFunction (p.relocate m) (f.relocate m) =
      (lowerFunction p f).mapError (LoweringError.relocate m) := by
  have hcode : (f.relocate m).code = f.code.map (Instruction.relocate m) := rfl
  simp only [lowerFunction, hcode, lowerCode_relocate]
  cases lowerCode p 0 0 f.code <;> rfl

theorem lowerFunctions_relocate (p : Program) (fs : List Function) :
    lowerFunctions (p.relocate m) (fs.map (Function.relocate m)) =
      (lowerFunctions p fs).mapError (LoweringError.relocate m) := by
  induction fs with
  | nil => rfl
  | cons f fs ih =>
    have hcalled : (f.relocate m).called = f.called := rfl
    simp only [List.map_cons, lowerFunctions, hcalled, lowerFunction_relocate, ih]
    split
    · cases lowerFunction p f with
      | error e => rfl
      | ok lines => cases lowerFunctions p fs <;> rfl
    · rfl

end Assembly

theorem Program.generate_relocate (p : Program) (target : Target) :
    (p.relocate m).generate target =
      (p.generate target).mapError (LoweringError.relocate m) := by
  cases target
  have hfunctions : Assembly.lowerFunctions (p.relocate m) (p.relocate m).functions =
      (Assembly.lowerFunctions p p.functions).mapError (LoweringError.relocate m) :=
    Assembly.lowerFunctions_relocate m p p.functions
  simp only [generate, lower, main?_relocate, hfunctions]
  cases p.main? with
  | none => rfl
  | some main =>
    have hcalled : (main.relocate m).called = main.called := rfl
    simp only [Option.map_some, hcalled]
    split
    · cases Assembly.lowerFunctions p p.functions with
      | error e => rfl
      | ok lines =>
        have hmemories : (p.relocate m).memories.zipIdx =
            p.memories.zipIdx.map (Prod.map (Memory.relocate m) id) := List.zipIdx_map
        simp only [Except.mapError, hmemories, List.map_map]
        rfl
    · rfl

def Program.compile (p : Program) (target : Target) : Except CompileError Output :=
  match p.validate with
  | (_, .error e) => .error (.validation e)
  | (program, .ok warnings) => match program.generate target with
    | .error e => .error (.lowering e)
    | .ok assembly => .ok { assembly, program, warnings }

theorem compile_eq (loader : Loader) (entry : String) (options : Options) :
    compile loader entry options =
      ((Program.read loader options.library entry).mapError .parse).bind
        (·.compile options.resolvedTarget) := by
  simp only [compile, check, parse]
  cases Program.read loader options.library entry with
  | error errors => rfl
  | ok p =>
    simp only [Except.mapError, Except.bind, Program.compile]
    rcases p.validate with ⟨q, result⟩
    cases result <;> rfl

def relocateResult (r : Except CompileError Output) : Except CompileError Output :=
  (r.map (Output.relocate m)).mapError (CompileError.relocate m)

theorem Program.compile_relocate (p : Program) (target : Target) :
    (p.relocate m).compile target = relocateResult m (p.compile target) := by
  simp only [compile, validate_relocate]
  rcases p.validate with ⟨q, result⟩
  cases result with
  | error e => rfl
  | ok warnings =>
    simp only [Except.map, Except.mapError, generate_relocate]
    cases q.generate target <;> rfl

theorem Front.unknownWords_relocate (p : Program) :
    unknownWords (p.relocate m) = (unknownWords p).map (SyntaxError.relocate m) := by
  have hcandidates : ∀ name, (p.relocate m).candidates name = p.candidates name := by
    intro name
    simp only [Program.candidates, Program.relocate, List.filter_map, List.map_map]
    rfl
  have hfunctions : (p.relocate m).functions = p.functions.map (Function.relocate m) := rfl
  simp only [unknownWords, hcandidates, hfunctions, List.flatMap_map, List.map_flatMap]
  congr 1
  funext f
  have hcode : (f.relocate m).code = f.code.map (Instruction.relocate m) := rfl
  rw [hcode, List.filterMap_map, List.map_filterMap]
  congr 1
  funext i
  rcases i with ⟨loc, op⟩
  simp only [Function.comp_apply, Instruction.relocate]
  split
  · split <;> rfl
  · rfl

def Location.forget (_ : Location) : Location := ⟨"", 0, 0⟩

structure SourceUnit.Alike (u v : SourceUnit) : Prop where
  id : u.id = v.id
  read : ∀ p q : Program, p.relocate Location.forget = q.relocate Location.forget →
    (u.read p).1.relocate Location.forget = (v.read q).1.relocate Location.forget ∧
      (u.read p).2.map (Report.relocate Location.forget) =
        (v.read q).2.map (Report.relocate Location.forget)

theorem Declaration.readAll_alike (internal : Bool) (stop stop' : Location) {p q : Program}
    (hpq : p.relocate Location.forget = q.relocate Location.forget) {ts ts' : List Lexeme}
    (htokens : ts.map (·.token) = ts'.map (·.token)) :
    (readAll internal stop p ts).1.relocate Location.forget =
        (readAll internal stop' q ts').1.relocate Location.forget ∧
      (readAll internal stop p ts).2.map (Report.relocate Location.forget) =
        (readAll internal stop' q ts').2.map (Report.relocate Location.forget) := by
  have hforget : ∀ ts : List Lexeme, ts.map (Lexeme.relocate Location.forget) =
      (ts.map (·.token)).map (Lexeme.mk ⟨"", 0, 0⟩) := by
    intro ts
    rw [List.map_map]
    rfl
  have hp := readAll_relocate Location.forget internal stop p ts
  have hq := readAll_relocate Location.forget internal stop' q ts'
  rw [← hpq, hforget, ← htokens, ← hforget] at hq
  exact Prod.mk.inj (hp.symm.trans hq)

namespace SourceUnit

theorem Alike.refl (u : SourceUnit) : Alike u u := by
  refine ⟨rfl, ?_⟩
  intro p q hpq
  simp only [SourceUnit.read]
  cases TokenStream.ofText u.id u.text with
  | error errors => exact ⟨hpq, rfl⟩
  | ok stream => exact Declaration.readAll_alike u.internal _ _ hpq rfl

end SourceUnit

namespace SourceTable

def tokens? (t : SourceTable) (id : String) : Option (List Token) :=
  (t.find? id).bind fun text =>
    (TokenStream.ofText id text).toOption.map fun stream => stream.lexemes.map (·.token)

/-- Two tables hold the same names, and under each name a text of the same tokens. -/
structure SameTokens (t t' : SourceTable) : Prop where
  names : ∀ id, id ∈ t.files.map (·.1) ↔ id ∈ t'.files.map (·.1)
  tokens : ∀ id ∈ t.files.map (·.1), (t.tokens? id).isSome ∧ t.tokens? id = t'.tokens? id

theorem exists_of_tokens? {t : SourceTable} {id : String} {tokens : List Token}
    (h : t.tokens? id = some tokens) : ∃ text stream, t.find? id = some text ∧
      TokenStream.ofText id text = .ok stream ∧ stream.lexemes.map (·.token) = tokens := by
  obtain ⟨text, htext, h⟩ := Option.bind_eq_some_iff.mp h
  obtain ⟨stream, hstream, htokens⟩ := Option.map_eq_some_iff.mp h
  refine ⟨text, stream, htext, ?_, htokens⟩
  cases hof : TokenStream.ofText id text with
  | error e => simp [hof, Except.toOption] at hstream
  | ok s =>
    rw [hof] at hstream
    exact congrArg Except.ok (Option.some.inj hstream)

inductive FetchedAlike : Except SourceError SourceUnit → Except SourceError SourceUnit → Prop
  | error (e : SourceError) : FetchedAlike (.error e) (.error e)
  | ok {u v : SourceUnit} (h : u.Alike v) : FetchedAlike (.ok u) (.ok v)

theorem SameTokens.fetch {t t' : SourceTable} (h : SameTokens t t') (name : String)
    (from? : Option String) :
    FetchedAlike (t.loader.fetch name from?) (t'.loader.fetch name from?) := by
  simp only [Loader.fetch, loader, resolve]
  by_cases hmem : Source.withExtension name ∈ t.files.map (·.1)
  · rw [if_pos hmem, if_pos ((h.names _).mp hmem)]
    obtain ⟨hsome, heq⟩ := h.tokens _ hmem
    obtain ⟨tokens, htokens⟩ := Option.isSome_iff_exists.mp hsome
    obtain ⟨text, stream, htext, hstream, hlexemes⟩ := exists_of_tokens? htokens
    obtain ⟨text', stream', htext', hstream', hlexemes'⟩ := exists_of_tokens? (heq ▸ htokens)
    simp only [load, htext, htext']
    refine .ok ⟨rfl, ?_⟩
    intro p q hpq
    simp only [SourceUnit.read, hstream, hstream']
    exact Declaration.readAll_alike false _ _ hpq (hlexemes.trans hlexemes'.symm)
  · rw [if_neg hmem, if_neg (mt (h.names _).mpr hmem)]
    exact .error _

end SourceTable

namespace Front

structure Alike (f g : Front) : Prop where
  program : f.program.relocate Location.forget = g.program.relocate Location.forget
  errors : f.errors.map (SyntaxError.relocate Location.forget) =
    g.errors.map (SyntaxError.relocate Location.forget)
  queue : List.Forall₂ SourceUnit.Alike f.queue g.queue
  visited : f.visited = g.visited

theorem Alike.enqueue {f g : Front} (h : f.Alike g) {u v : SourceUnit} (huv : u.Alike v) :
    (f.enqueue u).Alike (g.enqueue v) := by
  simp only [Front.enqueue, huv.id, h.visited]
  split
  · exact h
  · refine ⟨h.program, h.errors, ?_, rfl⟩
    exact List.rel_append h.queue (.cons huv .nil)

theorem Alike.settle {f g : Front} (h : f.Alike g) {r s : Report}
    (hrs : r.relocate Location.forget = s.relocate Location.forget)
    {fetch fetch' : String → Except SourceError SourceUnit}
    (hfetch : ∀ name, SourceTable.FetchedAlike (fetch name) (fetch' name)) :
    (f.settle fetch r).Alike (g.settle fetch' s) := by
  cases r with
  | fault e =>
    cases s with
    | fault e' =>
      have he := Report.fault.inj hrs
      exact ⟨h.program, by simp [Front.settle, h.errors, he], h.queue, h.visited⟩
    | use loc' name' => exact absurd hrs (by simp [Report.relocate])
  | use loc name =>
    cases s with
    | fault e' => exact absurd hrs (by simp [Report.relocate])
    | use loc' name' =>
      obtain rfl : name = name' := (Report.use.inj hrs).2
      simp only [Front.settle]
      generalize fetch name = r, fetch' name = r', hfetch name = hr
      cases hr with
      | error e => exact ⟨h.program, by simp [accept, h.errors]; rfl, h.queue, h.visited⟩
      | ok huv => exact h.enqueue huv

theorem Alike.foldl_settle {f g : Front} (h : f.Alike g) {rs ss : List Report}
    (hrs : rs.map (Report.relocate Location.forget) = ss.map (Report.relocate Location.forget))
    {fetch fetch' : String → Except SourceError SourceUnit}
    (hfetch : ∀ name, SourceTable.FetchedAlike (fetch name) (fetch' name)) :
    (rs.foldl (Front.settle fetch) f).Alike (ss.foldl (Front.settle fetch') g) := by
  induction rs generalizing ss f g with
  | nil =>
    obtain rfl : ss = [] := by simpa using hrs.symm
    exact h
  | cons r rs ih =>
    cases ss with
    | nil => simp at hrs
    | cons s ss =>
      obtain ⟨hr, hrs⟩ := List.cons.inj hrs
      exact ih (h.settle hr hfetch) hrs

section

variable {t t' : SourceTable} (h : t.SameTokens t')

include h

theorem Alike.step {f g : Front} (hfg : f.Alike g) {u v : SourceUnit} (huv : u.Alike v) :
    (Front.step t.loader f u).Alike (Front.step t'.loader g v) := by
  obtain ⟨hprogram, hreports⟩ := huv.read f.program g.program hfg.program
  simp only [Front.step]
  apply Alike.foldl_settle _ hreports
  · intro name
    rw [huv.id]
    exact h.fetch name (some v.id)
  · exact ⟨hprogram, hfg.errors, hfg.queue, hfg.visited⟩

theorem Alike.run {f g : Front} (hfg : f.Alike g) :
    (f.run t.loader).Alike (g.run t'.loader) := by
  -- the second run takes a step whenever the first does, since as many sources wait
  fun_induction Front.run t.loader f generalizing g with
  | case1 f hqueue =>
    have hqueues := hfg.queue
    rw [hqueue] at hqueues
    rw [run_of_nil t'.loader (List.forall₂_nil_left_iff.mp hqueues)]
    exact hfg
  | case2 f u us hqueue hlt ih =>
    have hqueues := hfg.queue
    rw [hqueue] at hqueues
    obtain ⟨v, vs, huv, hvs, hqueue'⟩ := List.forall₂_cons_left_iff.mp hqueues
    rw [run_of_queue t'.loader hqueue']
    apply ih
    apply Alike.step h _ huv
    exact ⟨hfg.program, hfg.errors, hvs, hfg.visited⟩

end

theorem Alike.initial (library : Bool) {u v : SourceUnit} (h : u.Alike v) :
    (Front.initial library u).Alike (Front.initial library v) := by
  refine ⟨?_, ?_, ?_, ?_⟩
  · rw [program_initial, program_initial]
  · rw [errors_initial, errors_initial]
  · rw [queue_initial, queue_initial]
    refine List.rel_append ?_ (.cons h .nil)
    split
    · exact .cons (SourceUnit.Alike.refl Source.library) .nil
    · exact .nil
  · cases library <;> simp [Front.initial, Front.enqueue, h.id]

theorem Alike.finish {f g : Front} (h : f.Alike g) :
    (f.finish.map (Program.relocate Location.forget)).mapError
        (List.map (SyntaxError.relocate Location.forget)) =
      (g.finish.map (Program.relocate Location.forget)).mapError
        (List.map (SyntaxError.relocate Location.forget)) := by
  have herrors : (f.errors ++ unknownWords f.program).map (SyntaxError.relocate Location.forget) =
      (g.errors ++ unknownWords g.program).map (SyntaxError.relocate Location.forget) := by
    rw [List.map_append, List.map_append, h.errors, ← unknownWords_relocate,
      ← unknownWords_relocate, h.program]
  have hempty : (f.errors ++ unknownWords f.program).isEmpty =
      (g.errors ++ unknownWords g.program).isEmpty := by
    have := congrArg List.isEmpty herrors
    simpa only [List.isEmpty_map] using this
  simp only [Front.finish, hempty]
  split
  · simp only [Except.map, Except.mapError, h.program]
  · simp only [Except.map, Except.mapError, herrors]

end Front

theorem Program.read_alike {t t' : SourceTable} (h : t.SameTokens t') (library : Bool)
    (entry : String) :
    ((Program.read t.loader library entry).map (Program.relocate Location.forget)).mapError
        (List.map (SyntaxError.relocate Location.forget)) =
      ((Program.read t'.loader library entry).map (Program.relocate Location.forget)).mapError
        (List.map (SyntaxError.relocate Location.forget)) := by
  simp only [Program.read]
  generalize t.loader.fetch entry none = r, t'.loader.fetch entry none = r',
    h.fetch entry none = hr
  cases hr with
  | error e => rfl
  | ok huv => exact ((Front.Alike.initial library huv).run h).finish

theorem compile_alike {t t' : SourceTable} (h : t.SameTokens t') (entry : String)
    (options : Options) :
    relocateResult Location.forget (compile t.loader entry options) =
      relocateResult Location.forget (compile t'.loader entry options) := by
  rw [compile_eq, compile_eq]
  have hread := Program.read_alike h options.library entry
  cases hp : Program.read t.loader options.library entry with
  | error errors =>
    cases hq : Program.read t'.loader options.library entry with
    | error errors' =>
      simp only [hp, hq, Except.map, Except.mapError, Except.error.injEq] at hread
      simp only [Except.mapError, Except.bind, relocateResult, Except.map, CompileError.relocate,
        hread]
    | ok q => simp [hp, hq, Except.map, Except.mapError] at hread
  | ok p =>
    cases hq : Program.read t'.loader options.library entry with
    | error errors => simp [hp, hq, Except.map, Except.mapError] at hread
    | ok q =>
      simp only [hp, hq, Except.map, Except.mapError, Except.ok.injEq] at hread
      simp only [Except.mapError, Except.bind]
      rw [← Program.compile_relocate, ← Program.compile_relocate, hread]

namespace CompileError

theorem exitStatus_relocate (e : CompileError) : (e.relocate m).exitStatus = e.exitStatus := by
  cases e with
  | validation error => cases error <;> rfl
  | lowering error => cases error <;> rfl
  | _ => rfl

theorem length_diagnostics_relocate (e : CompileError) :
    (e.relocate m).diagnostics.length = e.diagnostics.length := by
  have hone : ∀ (b : Bool) (d d' : Diagnostic), (if b then [d] else [d']).length = 1 := by
    intro b d d'
    cases b <;> rfl
  cases e with
  | parse errors => simp [relocate, diagnostics]
  | validation error => simp only [relocate, diagnostics, hone]
  | lowering error => simp only [relocate, diagnostics, hone]
  | _ => rfl

end CompileError

namespace Program

def unused (p : Program) : List Nat :=
  (p.functions.zipIdx.filter fun f => !f.1.called && !f.1.internal).map (·.2)

theorem unused_relocate (p : Program) : (p.relocate m).unused = p.unused := by
  simp only [unused, relocate, List.zipIdx_map, List.filter_map, List.map_map]
  rfl

/-- The warnings `ws` are about the functions at `positions`, one for each. -/
def WarnsOf (p : Program) (positions : List Nat) (ws : List Diagnostic) : Prop :=
  List.Forall₂ (fun i w => ∃ f, p.functions[i]? = some f ∧ w = f.unusedWarning) positions ws

theorem warnsOf_unused (p : Program) : p.WarnsOf p.unused p.unusedWarnings := by
  have hwarnings : p.unusedWarnings =
      (p.functions.zipIdx.filter fun f => !f.1.called && !f.1.internal).map
        fun f => f.1.unusedWarning := by
    calc p.unusedWarnings
      _ = ((p.functions.zipIdx.map (·.1)).filter fun f => !f.called && !f.internal).map
          Function.unusedWarning := by
        rw [List.zipIdx_map_fst, unusedWarnings]
      _ = _ := by
        rw [List.filter_map, List.map_map]
        rfl
  rw [WarnsOf, unused, hwarnings, List.forall₂_map_left_iff, List.forall₂_map_right_iff,
    List.forall₂_same]
  intro f hf
  have := List.mem_zipIdx_iff_getElem?.mp (List.mem_of_mem_filter hf)
  exact ⟨f.1, this, rfl⟩

theorem warnings_of_compile {p : Program} {target : Target} {o : Output}
    (h : p.compile target = .ok o) : o.warnings = o.program.unusedWarnings := by
  unfold compile at h
  split at h
  · simp at h
  · next q warnings hvalid =>
    obtain ⟨-, -, -, -, -, hwarnings⟩ := validate_eq_ok hvalid
    split at h
    · simp at h
    · rw [← Except.ok.inj h]
      exact hwarnings

end Program

theorem warnsOf_of_compile {loader : Loader} {entry : String} {options : Options} {o : Output}
    (h : compile loader entry options = .ok o) : o.program.WarnsOf o.program.unused o.warnings := by
  rw [compile_eq] at h
  cases hread : Program.read loader options.library entry with
  | error errors => simp [hread, Except.mapError, Except.bind] at h
  | ok p =>
    simp only [hread, Except.mapError, Except.bind] at h
    rw [Program.warnings_of_compile h]
    exact Program.warnsOf_unused o.program

/--
Comments, blanks and line breaks do not change what is compiled. Both tables give the same assembly,
the same program up to locations and warnings of the same functions, or both fail with the same
error up to locations.
-/
theorem layout_changes_nothing_but_locations {t t' : SourceTable} (h : t.SameTokens t')
    (entry : String) (options : Options) :
    (∃ o o', compile t.loader entry options = .ok o ∧ compile t'.loader entry options = .ok o' ∧
      o.assembly = o'.assembly ∧
      o.program.relocate Location.forget = o'.program.relocate Location.forget ∧
      o.warnings.length = o'.warnings.length ∧
      ∃ positions, o.program.WarnsOf positions o.warnings ∧
        o'.program.WarnsOf positions o'.warnings) ∨
    ∃ e e', compile t.loader entry options = .error e ∧
      compile t'.loader entry options = .error e' ∧
      e.relocate Location.forget = e'.relocate Location.forget ∧
      e.exitStatus = e'.exitStatus ∧ e.diagnostics.length = e'.diagnostics.length := by
  have halike := compile_alike h entry options
  cases hr : compile t.loader entry options with
  | error e =>
    cases hr' : compile t'.loader entry options with
    | ok o' => simp [hr, hr', relocateResult, Except.map, Except.mapError] at halike
    | error e' =>
      simp only [hr, hr', relocateResult, Except.map, Except.mapError, Except.error.injEq]
        at halike
      refine Or.inr ⟨e, e', rfl, rfl, halike, ?_, ?_⟩
      · rw [← CompileError.exitStatus_relocate Location.forget e, halike,
          CompileError.exitStatus_relocate]
      · rw [← CompileError.length_diagnostics_relocate Location.forget e, halike,
          CompileError.length_diagnostics_relocate]
  | ok o =>
    cases hr' : compile t'.loader entry options with
    | error e' => simp [hr, hr', relocateResult, Except.map, Except.mapError] at halike
    | ok o' =>
      simp only [hr, hr', relocateResult, Except.map, Except.mapError, Except.ok.injEq] at halike
      have hprogram : o.program.relocate Location.forget = o'.program.relocate Location.forget :=
        congrArg Output.program halike
      have hunused : o.program.unused = o'.program.unused := by
        rw [← Program.unused_relocate Location.forget, hprogram, Program.unused_relocate]
      have hwarns := warnsOf_of_compile hr
      have hwarns' := warnsOf_of_compile hr'
      rw [← hunused] at hwarns'
      have hlength : o.warnings.length = o'.warnings.length :=
        hwarns.length_eq.symm.trans hwarns'.length_eq
      have hassembly : (o.relocate Location.forget).assembly =
          (o'.relocate Location.forget).assembly := by
        rw [halike]
      exact Or.inl ⟨o, o', rfl, rfl, hassembly, hprogram, hlength, o.program.unused, hwarns,
        hwarns'⟩

theorem exists_compile_of_check {loader : Loader} {entry : String} {options : Options}
    (h : (check loader entry options).isOk = true) :
    ∃ o, compile loader entry options = .ok o := by
  unfold check at h
  split at h
  · simp [Except.isOk, Except.toBool] at h
  · next p hparse =>
    split at h
    · simp [Except.isOk, Except.toBool] at h
    · next q warnings hvalid =>
      obtain ⟨a, ha⟩ := (lowerable_of_accepted (accepted_of_parse hparse hvalid)).exists_lower
      refine ⟨⟨a, q, warnings⟩, ?_⟩
      cases options.resolvedTarget
      simp only [compile, check, hparse, hvalid, Program.generate, ha]

def spaced : SourceTable :=
  SourceTable.ofList [
    ("main", "using \"one\" // a number\nfn idle ( )\n\nfn main (\n  1 one + drop\n)\n"),
    ("one", "fn one -> int ( 1 )"),
    ("short", "fn main (\n  1 + // one is missing\n  drop )")]

/-- The sources of `spaced` with other gaps. -/
def packed : SourceTable :=
  SourceTable.ofList [
    ("main", "using\"one\"fn idle()fn main(1 one + drop)"),
    ("one", "// a number\nfn one\n-> int(1)"),
    ("short", "fn main(1 + drop)")]

theorem sameTokens_spaced_packed : spaced.SameTokens packed := by
  have hnames : spaced.files.map (·.1) = packed.files.map (·.1) := by decide +kernel
  refine ⟨fun id => by rw [hnames], ?_⟩
  decide +kernel

theorem layout_changes_nothing_but_locations_packed : spaced.SameTokens packed ∧
    (∃ o o', compile spaced.loader "main" { library := false } = .ok o ∧
      compile packed.loader "main" { library := false } = .ok o' ∧ o.assembly = o'.assembly ∧
      o.program.relocate Location.forget = o'.program.relocate Location.forget) ∧
    ∃ e e', compile spaced.loader "short" { library := false } = .error e ∧
      compile packed.loader "short" { library := false } = .error e' ∧ e ≠ e' ∧
      e.relocate Location.forget = e'.relocate Location.forget ∧
      e.exitStatus = .validation ∧ e'.exitStatus = .validation := by
  have hsame := sameTokens_spaced_packed
  refine ⟨hsame, ?_, ?_⟩
  · have hcheck : (check spaced.loader "main" { library := false }).isOk = true := by
      decide +kernel
    obtain ⟨o, ho⟩ := exists_compile_of_check hcheck
    rcases layout_changes_nothing_but_locations hsame "main" { library := false } with
      ⟨o, o', ho, ho', hassembly, hprogram, -⟩ | ⟨e, -, he, -⟩
    · exact ⟨o, o', ho, ho', hassembly, hprogram⟩
    · simp [ho] at he
  · have hcheck : check spaced.loader "short" { library := false } = .error
        (.validation (.violation ⟨"short.cin", 2, 5⟩ (.underflow "+" 2 [.int]))) := by
      decide +kernel
    have hcheck' : check packed.loader "short" { library := false } = .error
        (.validation (.violation ⟨"short.cin", 1, 11⟩ (.underflow "+" 2 [.int]))) := by
      decide +kernel
    rcases layout_changes_nothing_but_locations hsame "short" { library := false } with
      ⟨o, -, ho, -⟩ | ⟨e, e', he, he', heq, -⟩
    · simp [compile, hcheck] at ho
    · simp only [compile, hcheck, hcheck', Except.error.injEq] at he he' ⊢
      subst he he'
      exact ⟨_, _, rfl, rfl, by decide, heq, rfl, rfl⟩

end StackLang
