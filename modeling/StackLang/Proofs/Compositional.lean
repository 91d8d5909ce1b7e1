import Mathlib.Data.List.Induction
import StackLang.Proofs.Nesting
import StackLang.Proofs.SyntaxTree
import StackLang.Proofs.Validated

/-!
This module contains the agreement of reading with syntax trees: reading the tokens of a tree in one
pass, with the targets of jumps filled in later, gives the program that the tree stands for.
-/

namespace StackLang

theorem latest_append (name n : String) (names : List String) :
    latest name (names ++ [n]) = if n = name then some names.length else latest name names := by
  induction names with
  | nil =>
    simp only [List.nil_append, latest, List.length_nil]
  | cons m names ih =>
    simp only [List.cons_append, latest, ih, List.length_cons]
    by_cases h : n = name
    · simp only [h, if_true]
    · simp only [h, if_false]

theorem slotsOf_append (names more : List String) :
    slotsOf (names ++ more) =
      slotsOf names ++ more.zipIdx.map fun (name, i) => { name, index := names.length + i } := by
  unfold slotsOf
  rw [List.zipIdx_append, List.map_append, Nat.zero_add]
  congr 1
  rw [List.zipIdx_eq_map_add, List.map_map]
  simp [Function.comp_def]

@[simp]
theorem length_slotsOf (names : List String) : (slotsOf names).length = names.length := by
  simp [slotsOf]

theorem find?_slotsOf (name : String) (names : List String) :
    ((slotsOf names).reverse.find? (·.name = name)).map (·.index) = latest name names := by
  induction names using List.reverseRecOn with
  | nil => rfl
  | append_singleton names n ih =>
    rw [latest_append, slotsOf_append]
    simp only [List.zipIdx_singleton, List.map_cons, List.map_nil, List.reverse_append,
      List.reverse_cons, List.reverse_nil, List.nil_append, List.cons_append, List.find?_cons]
    split
    · next h => simp_all
    · next h => simp_all

theorem intern_eq (texts : List String) (s : String) :
    intern texts s = ((addText texts s).idxOf s, addText texts s) := by
  unfold intern addText
  split
  · next i hi =>
    have hmem : s ∈ texts := by
      obtain ⟨hlt, h, -⟩ := List.findIdx?_eq_some_iff_getElem.mp hi
      rw [← of_decide_eq_true h]
      apply List.getElem_mem
    have hbeq : (fun x : String => x == s) = fun x => decide (x = s) := by
      funext x
      apply beq_eq_decide
    rw [if_pos hmem, List.idxOf, List.findIdx_eq_getD_findIdx?, hbeq, hi]
    rfl
  · next hnone =>
    have hmem : s ∉ texts := by
      intro hmem
      have := List.findIdx?_eq_none_iff.mp hnone s hmem
      simp at this
    rw [if_neg hmem, List.idxOf_append_of_notMem hmem]
    simp

namespace Body

structure Matches (b : Body) (s : Scope) : Prop where
  strings : b.strings = s.texts
  bindings : b.bindings = slotsOf s.bound

def grow (b : Body) (s : Scope) (code : List Instruction) : Body :=
  { b with code := b.code ++ code, strings := s.texts, bindings := slotsOf s.bound }

theorem matches_grow (b : Body) (s : Scope) (code : List Instruction) : (b.grow s code).Matches s :=
  ⟨rfl, rfl⟩

theorem grow_grow (b : Body) (s s' : Scope) (code code' : List Instruction) :
    (b.grow s code).grow s' code' = b.grow s' (code ++ code') := by
  simp [grow]

theorem Matches.grow_nil {b : Body} {s : Scope} (h : b.Matches s) : b.grow s [] = b := by
  simp [grow, ← h.strings, ← h.bindings]

theorem patch_grow (b : Body) (s : Scope) (pre post : List Instruction) (i : Instruction)
    (target : Nat) :
    (b.grow s (pre ++ i :: post)).patch (b.code.length + pre.length) target =
      b.grow s (pre ++ ⟨i.loc, i.op.retarget target⟩ :: post) := by
  have hpatch := modify_append_cons (l := b.code ++ (pre ++ i :: post)) (a := b.code ++ pre)
    (f := fun c => ⟨c.loc, c.op.retarget target⟩) (i := b.code.length + pre.length)
    (by rw [List.append_assoc]) (by rw [List.length_append])
  rw [List.append_assoc] at hpatch
  simp only [patch, grow, hpatch]

def under (b : Body) (o : OpenBlock) (s : Scope) (code : List Instruction) : Body :=
  { b.grow s code with blocks := o :: b.blocks }

theorem matches_under (b : Body) (o : OpenBlock) (s : Scope) (code : List Instruction) :
    (b.under o s code).Matches s :=
  ⟨rfl, rfl⟩

theorem under_grow (b : Body) (o : OpenBlock) (s s' : Scope) (code code' : List Instruction) :
    (b.under o s code).grow s' code' = b.under o s' (code ++ code') := by
  simp [grow, under]

@[simp]
theorem length_code_under (b : Body) (o : OpenBlock) (s : Scope) (code : List Instruction) :
    (b.under o s code).code.length = b.code.length + code.length := by
  simp [under, grow]

theorem Matches.enter {b : Body} {s : Scope} (h : b.Matches s) (loc : Location) (block : Block) :
    b.enter loc block =
      b.under { block, start := b.code.length, loc } s [⟨loc, .enter block⟩] := by
  simp [Body.enter, under, grow, emit, ← h.strings, ← h.bindings]

section

variable (b : Body) {o : OpenBlock} (s : Scope) {openLoc : Location} (loc : Location)
  {pre first : List Instruction} {op : Op} {target : Nat}

theorem test_under (hpending : o.pending = none) :
    (b.under o s pre).test loc =
      b.under { o with pending := some (b.code.length + pre.length) } s
        (pre ++ [⟨loc, .branch Op.pendingTarget⟩]) := by
  simp [Body.test, under, grow, emit, hpending]

theorem orElse_under (hblock : o.block = .cond)
    (hpending : o.pending = some (b.code.length + pre.length)) (helse : o.hasElse = false)
    (htarget : target = b.code.length + pre.length + 1 + first.length) :
    (b.under o s (pre ++ ⟨openLoc, op⟩ :: first)).orElse loc =
      b.under { o with pending := some target, hasElse := true } s
        (pre ++ ⟨openLoc, op.retarget (target + 1)⟩ :: first ++
          [⟨loc, .otherwise Op.pendingTarget⟩]) := by
  have hpatch := patch_grow b s pre (first ++ [⟨loc, .otherwise Op.pendingTarget⟩]) ⟨openLoc, op⟩
    (target + 1)
  have hlength : b.code.length + (pre.length + (first.length + 1)) = target := by omega
  simp only [Body.orElse, under, hblock, hpending, helse]
  simp only [patch, emit, grow, List.append_assoc, List.cons_append, List.length_append,
    List.length_cons, hlength, Body.mk.injEq, and_self, and_true] at hpatch ⊢
  exact hpatch

theorem close_cond (hblock : o.block = .cond)
    (hpending : o.pending = some (b.code.length + pre.length))
    (htarget : target = b.code.length + pre.length + 1 + first.length) :
    (b.under o s (pre ++ ⟨openLoc, op⟩ :: first)).close loc o b.blocks =
      b.grow s (pre ++ ⟨openLoc, op.retarget target⟩ :: (first ++ [⟨loc, .leave .cond⟩])) := by
  have hpatch := patch_grow b s pre (first ++ [⟨loc, .leave .cond⟩]) ⟨openLoc, op⟩ target
  have hlength : b.code.length + (pre.length + (first.length + 1)) = target := by omega
  simp only [Body.close, under, hblock, hpending]
  simp only [patch, emit, grow, List.append_assoc, List.cons_append, List.length_append,
    List.length_cons, hlength] at hpatch ⊢
  exact hpatch

theorem close_loop (hblock : o.block = .loop)
    (hpending : o.pending = some (b.code.length + pre.length))
    (htarget : target = b.code.length + pre.length + 1 + first.length + 1) :
    (b.under o s (pre ++ ⟨openLoc, op⟩ :: first)).close loc o b.blocks =
      b.grow s (pre ++ ⟨openLoc, op.retarget target⟩ ::
        (first ++ [⟨loc, .jump o.start⟩, ⟨loc, .leave .loop⟩])) := by
  have hpatch := patch_grow b s pre (first ++ [⟨loc, .jump o.start⟩, ⟨loc, .leave .loop⟩])
    ⟨openLoc, op⟩ target
  have hlength : b.code.length + (pre.length + (first.length + 1)) + 1 = target := by omega
  simp only [Body.close, under, hblock, hpending]
  simp only [patch, emit, grow, List.append_assoc, List.cons_append, List.nil_append,
    List.length_append, List.length_cons, hlength] at hpatch ⊢
  exact hpatch

end

theorem Matches.meaning {b : Body} {s : Scope} (h : b.Matches s) (name : String) :
    b.meaning s.globals name = s.resolve name := by
  have hfind := find?_slotsOf name s.bound
  unfold Body.meaning Scope.resolve
  rw [h.bindings, ← hfind]
  cases (slotsOf s.bound).reverse.find? (·.name = name) with
  | none => rfl
  | some binding => rfl

section

variable {ctx : Enclosing} {b : Body} {s : Scope} (h : b.Matches s)
include h

theorem Matches.simple (hglobals : s.globals = ctx.globals) (loc : Location) (a : Atom) :
    b.simple ctx ⟨loc, a.token⟩ = b.grow (a.scope s) [⟨loc, a.op s⟩] := by
  cases a with
  | ident name =>
    simp only [Body.simple, Atom.token, ← hglobals, h.meaning name]
    simp [emit, grow, Atom.scope, Atom.op, ← h.strings, ← h.bindings]
  | str text =>
    simp only [Body.simple, Atom.token, intern_eq, h.strings]
    simp [emit, grow, Atom.scope, Atom.op, ← h.bindings]
  | _ => simp [Body.simple, Atom.token, emit, grow, Atom.scope, Atom.op, ← h.strings, ← h.bindings]

theorem Matches.bind (loc : Location) {names : List String} (hnames : names ≠ []) :
    b.bind loc names = b.grow (s.bind names) [⟨loc, .bind names.length⟩] := by
  have hempty : names.isEmpty = false := by simpa using hnames
  simp only [Body.bind, hempty, Scope.bind, grow, slotsOf_append, h.bindings, length_slotsOf,
    ← h.strings]
  rfl

end

section

variable (ctx : Enclosing) (b : Body) (loc : Location) (ts : List Lexeme)

theorem read_atom (a : Atom) :
    read ctx b (⟨loc, a.token⟩ :: ts) = read ctx (b.simple ctx ⟨loc, a.token⟩) ts := by
  rw [read.eq_def]
  cases a <;> rfl

theorem read_cast (typeLoc : Location) (type : TypeName) :
    read ctx b (⟨loc, .kwCast⟩ :: ⟨typeLoc, .type type⟩ :: ts) =
      read ctx (b.emit loc (.cast type.kind)) ts := by
  rw [read]

theorem read_if : read ctx b (⟨loc, .kwIf⟩ :: ts) = read ctx (b.enter loc .cond) ts := by
  rw [read.eq_def]

theorem read_loop : read ctx b (⟨loc, .kwLoop⟩ :: ts) = read ctx (b.enter loc .loop) ts := by
  rw [read.eq_def]

theorem read_lparen : read ctx b (⟨loc, .lparen⟩ :: ts) = read ctx (b.test loc) ts := by
  rw [read.eq_def]

theorem read_else : read ctx b (⟨loc, .kwElse⟩ :: ts) = read ctx (b.orElse loc) ts := by
  rw [read.eq_def]

theorem read_rparen {o : OpenBlock} {outer : List OpenBlock} (hblocks : b.blocks = o :: outer) :
    read ctx b (⟨loc, .rparen⟩ :: ts) = read ctx (b.close loc o outer) ts := by
  rw [read.eq_def]
  simp only [hblocks]

theorem read_end (hblocks : b.blocks = []) :
    read ctx b (⟨loc, .rparen⟩ :: ts) = (b.finish loc, ts) := by
  rw [read.eq_def]
  simp only [hblocks]

theorem read_let {names : List (Location × String)} (inLoc : Location) :
    read ctx b (⟨loc, .kwLet⟩ :: (printNames names ++ ⟨inLoc, .kwIn⟩ :: ts)) =
      read ctx (b.bind loc (names.map (·.2))) ts := by
  have hall : ∀ t ∈ printNames names, (identName? t).isSome = true := by
    intro t ht
    obtain ⟨name, -, rfl⟩ := List.mem_map.mp ht
    rfl
  have htake : (printNames names ++ ⟨inLoc, .kwIn⟩ :: ts).takeWhile
      (fun t => (identName? t).isSome) = printNames names := by
    rw [List.takeWhile_append_of_pos hall]
    simp [identName?]
  have hdrop : (printNames names ++ ⟨inLoc, .kwIn⟩ :: ts).dropWhile
      (fun t => (identName? t).isSome) = ⟨inLoc, .kwIn⟩ :: ts := by
    rw [List.dropWhile_append_of_pos hall]
    rfl
  have hnames : (printNames names).filterMap identName? = names.map (·.2) := by
    simp only [printNames, List.filterMap_map]
    rw [← List.filterMap_eq_map]
    rfl
  rw [read.eq_def]
  simp only [htake, hnames]
  split
  · next l rest hrest =>
    rw [hdrop, List.cons.injEq] at hrest
    rw [hrest.2]
  · next hne =>
    exact absurd hdrop (hne inLoc ts)

end

end Body

@[simp]
theorem Phrase.length_code (s : Scope) (start : Nat) (ph : Phrase) :
    (ph.code s start).length = ph.size := by
  induction ph generalizing s start with
  | nil => rfl
  | _ =>
    simp_all [Phrase.code, Phrase.size]
    omega

@[simp]
theorem Phrase.globals_scope (s : Scope) (ph : Phrase) : (ph.scope s).globals = s.globals := by
  induction ph generalizing s with
  | nil => rfl
  | atom loc a rest ih =>
    rw [Phrase.scope, ih]
    cases a <;> rfl
  | _ => simp_all [Phrase.scope, Scope.bind]

namespace Body

/-- Reading goes on after a phrase with the code of the phrase. -/
theorem read_print {ctx : Enclosing} {s : Scope} (hglobals : s.globals = ctx.globals) {b : Body}
    (h : b.Matches s) (ph : Phrase) (ts : List Lexeme) :
    read ctx b (ph.print ++ ts) =
      read ctx (b.grow (ph.scope s) (ph.code s b.code.length)) ts := by
  induction ph generalizing b s ts with
  | nil =>
    simp only [Phrase.print, Phrase.scope, Phrase.code, h.grow_nil, List.nil_append]
  | atom loc a rest ih =>
    have hrest : (a.scope s).globals = ctx.globals := by
      rw [← hglobals]
      cases a <;> rfl
    simp only [Phrase.print, List.cons_append]
    rw [read_atom, h.simple hglobals, ih hrest (matches_grow ..), grow_grow]
    simp [Phrase.code, Phrase.scope, grow]
  | cast loc typeLoc type rest ih =>
    simp only [Phrase.print, List.cons_append]
    have hemit : b.emit loc (.cast type.kind) = b.grow s [⟨loc, .cast type.kind⟩] := by
      simp [emit, grow, ← h.strings, ← h.bindings]
    rw [read_cast, hemit, ih hglobals (matches_grow ..), grow_grow]
    simp [Phrase.code, Phrase.scope, grow]
  | letIn loc first others inLoc rest ih =>
    simp only [Phrase.print, List.cons_append, List.append_assoc]
    rw [read_let, h.bind loc (by simp), ih (s := s.bind _) hglobals (matches_grow ..), grow_grow]
    simp [Phrase.code, Phrase.scope, grow]
  | cond loc pre openLoc first closeLoc rest ihpre ihfirst ih =>
    simp only [Phrase.print, List.cons_append, List.append_assoc]
    rw [read_if, h.enter, ihpre hglobals (matches_under ..), under_grow, read_lparen,
      test_under _ _ _ rfl, ihfirst (by simpa using hglobals) (matches_under ..), under_grow,
      read_rparen _ _ _ _ rfl]
    simp only [length_code_under, ← List.append_cons]
    rw [close_cond _ _ _ rfl rfl rfl, ih (by simpa using hglobals) (matches_grow ..), grow_grow]
    simp [Phrase.code, Phrase.scope, grow, Op.retarget, Nat.add_assoc, Nat.add_left_comm,
      Nat.add_comm]
  | condElse loc pre openLoc first elseLoc second closeLoc rest ihpre ihfirst ihsecond ih =>
    simp only [Phrase.print, List.cons_append, List.append_assoc]
    rw [read_if, h.enter, ihpre hglobals (matches_under ..), under_grow, read_lparen,
      test_under _ _ _ rfl, ihfirst (by simpa using hglobals) (matches_under ..), under_grow,
      read_else]
    simp only [length_code_under, ← List.append_cons]
    rw [orElse_under _ _ _ rfl rfl rfl rfl, ihsecond (by simpa using hglobals) (matches_under ..),
      under_grow, read_rparen _ _ _ _ rfl]
    simp only [length_code_under, ← List.append_cons]
    rw [close_cond _ _ _ rfl (by simp; omega) rfl, ih (by simpa using hglobals) (matches_grow ..),
      grow_grow]
    simp [Phrase.code, Phrase.scope, grow, Op.retarget, Nat.add_assoc, Nat.add_left_comm,
      Nat.add_comm]
  | loop loc test openLoc body closeLoc rest ihtest ihbody ih =>
    simp only [Phrase.print, List.cons_append, List.append_assoc]
    rw [read_loop, h.enter, ihtest hglobals (matches_under ..), under_grow, read_lparen,
      test_under _ _ _ rfl, ihbody (by simpa using hglobals) (matches_under ..), under_grow,
      read_rparen _ _ _ _ rfl]
    simp only [length_code_under, ← List.append_cons]
    rw [close_loop _ _ _ rfl rfl rfl, ih (by simpa using hglobals) (matches_grow ..), grow_grow]
    simp [Phrase.code, Phrase.scope, grow, Op.retarget, Nat.add_assoc, Nat.add_left_comm,
      Nat.add_comm]

end Body

theorem word64?_eq_some {i : Int} (hlower : -2 ^ 63 ≤ i) (hupper : i < 2 ^ 63) :
    word64? i = some (Int64.ofInt i) := by
  unfold word64?
  apply if_pos
  have hmin : Int64.minValue.toInt = -2 ^ 63 := by decide
  have hmax : Int64.maxValue.toInt = 2 ^ 63 - 1 := by decide
  omega

namespace Decl

theorem atEnd_printAll (decls : List Decl) : Declaration.atEnd (printAll decls) = true := by
  cases decls with
  | nil => rfl
  | cons d decls => cases d <;> rfl

theorem Unused.takenName? {p : Program} {name : String} (h : Unused p name) :
    Declaration.takenName? p name = none := by
  have hconstants : p.constants.find? (·.name = name) = none := by
    simpa using h.1
  have hmemories : p.memories.find? (·.name = name) = none := by
    simpa using h.2
  simp only [Declaration.takenName?, hconstants, hmemories]

theorem Unused.globalNameFault? {p : Program} {name : String} (h : Unused p name)
    (hfunctions : ∀ f ∈ p.functions, f.name ≠ name) :
    Declaration.globalNameFault? p name = none := by
  have hany : p.functions.any (·.name = name) = false := by
    simpa using hfunctions
  simp only [Declaration.globalNameFault?, hany, h.takenName?]
  rfl

theorem Unused.functionNameFault? {p : Program} {name : String} {overload : Bool}
    (h : Unused p name)
    (hfunctions : ∀ f ∈ p.functions, f.name = name →
      name ≠ "main" ∧ overload = true ∧ f.overload = true) :
    Declaration.functionNameFault? p name overload = none := by
  simp only [Declaration.functionNameFault?, h.takenName?]
  split
  · rfl
  · next first others hfilter =>
    have hmem : ∀ f ∈ first :: others, name ≠ "main" ∧ overload = true ∧ f.overload = true := by
      intro f hf
      rw [← hfilter] at hf
      simp only [List.mem_filter, decide_eq_true_eq] at hf
      apply hfunctions f hf.1 hf.2
    have hall : (first :: others).all (·.overload) = true := by
      rw [List.all_eq_true]
      intro f hf
      apply (hmem f hf).2.2
    have hfirst := hmem first List.mem_cons_self
    simp only [hfirst.1, hfirst.2.1, hall, if_false, Bool.and_self, if_true]

end Decl

namespace Declaration

theorem exists_word {p : Program} {a : Location × Operand} {v : Int} (h : a.2.value? p = some v) :
    ∃ n : Int64, n.toInt = v ∧
      (∀ stop ts, operand p stop (Operand.print a :: ts) = (.ok n, ts)) ∧
      ∀ name, size p name (Operand.print a) = .ok n := by
  obtain ⟨loc, o⟩ := a
  cases o with
  | int n =>
    refine ⟨n, ?_, fun _ _ => rfl, fun _ => rfl⟩
    simpa [Operand.value?] using h
  | const name =>
    simp only [Operand.value?, Option.map_eq_some_iff] at h
    obtain ⟨c, hfind, hvalue⟩ := h
    refine ⟨c.value, hvalue, ?_, ?_⟩
    · intro stop ts
      simp [operand, Operand.print, Body.current, atEnd, Token.isDeclarator, Program.constant?,
        hfind]
    · intro name
      simp [size, Operand.print, Program.constant?, hfind]

theorem atEnd_operand (a : Location × Operand) (ts : List Lexeme) :
    atEnd (Operand.print a :: ts) = false := by
  obtain ⟨loc, o⟩ := a
  cases o <;> rfl

theorem constValue_print {p : Program} {e : ConstExpr} {v : Int} (h : e.value? p = some v)
    (hlower : -2 ^ 63 ≤ v) (hupper : v < 2 ^ 63) (name : String) (stop : Location)
    {ts : List Lexeme} (hts : atEnd ts = true) :
    constValue p name stop (e.print ++ ts) = (.ok (Int64.ofInt v), ts) := by
  have hword := word64?_eq_some hlower hupper
  cases e with
  | operand a =>
    obtain ⟨n, rfl, hn, -⟩ := exists_word h
    simp only [constValue, ConstExpr.print, List.cons_append, List.nil_append, hn, hts, if_true,
      Int64.ofInt_toInt]
  | sum a b opLoc | product a b opLoc =>
    simp only [ConstExpr.value?, Option.bind_eq_some_iff, Option.map_eq_some_iff] at h
    obtain ⟨x, hx, y, hy, rfl⟩ := h
    obtain ⟨n, rfl, hn, -⟩ := exists_word hx
    obtain ⟨m, rfl, hm, -⟩ := exists_word hy
    simp only [constValue, ConstExpr.print, List.cons_append, List.nil_append, hn, hm,
      atEnd_operand, apply, Body.current, hword, List.tail_cons, hts, if_true]
    rfl

theorem takeWhile_kinds {args : List (Location × KindName)} {t : Lexeme} {ts : List Lexeme}
    (h : endsKinds t = true) :
    (args.map KindName.print ++ t :: ts).takeWhile (!endsKinds ·) = args.map KindName.print := by
  rw [List.takeWhile_append_of_pos]
  · simp [h]
  · intro u hu
    obtain ⟨⟨loc, k⟩, -, rfl⟩ := List.mem_map.mp hu
    cases k <;> rfl

theorem dropWhile_kinds {args : List (Location × KindName)} {t : Lexeme} {ts : List Lexeme}
    (h : endsKinds t = true) :
    (args.map KindName.print ++ t :: ts).dropWhile (!endsKinds ·) = t :: ts := by
  rw [List.dropWhile_append_of_pos]
  · simp [h]
  · intro u hu
    obtain ⟨⟨loc, k⟩, -, rfl⟩ := List.mem_map.mp hu
    cases k <;> rfl

theorem kinds_print (args : List (Location × KindName)) :
    kinds (args.map KindName.print) = args.map (·.2.kind) := by
  induction args with
  | nil => rfl
  | cons a args ih =>
    obtain ⟨loc, k⟩ := a
    cases k <;> simpa [kinds, KindName.print, Token.kind?, KindName.kind] using ih

theorem kindFaults_print (args : List (Location × KindName)) :
    kindFaults (args.map KindName.print) = [] := by
  induction args with
  | nil => rfl
  | cons a args ih =>
    obtain ⟨loc, k⟩ := a
    cases k <;> simpa [kindFaults, KindName.print, Token.kind?] using ih

theorem withBody_print (p : Program) (f : Function) (stop openLoc closeLoc : Location)
    (body : Phrase) (ts : List Lexeme) :
    withBody p f [] stop (⟨openLoc, .lparen⟩ :: (body.print ++ ⟨closeLoc, .rparen⟩ :: ts)) =
      let s : Scope := ⟨p, [], p.strings⟩
      let bound := (body.scope s).bound
      let code := body.code s 0 ++ if bound.isEmpty then [] else [⟨closeLoc, .unbind bound.length⟩]
      ⟨{ p with
          functions := p.functions ++ [{ f with code, bindings := slotsOf bound }]
          strings := (body.scope s).texts }, [], ts⟩ := by
  have hmatches : Body.Matches { strings := p.strings } ⟨p, [], p.strings⟩ := ⟨rfl, rfl⟩
  simp only [withBody]
  rw [Body.read_print rfl hmatches, Body.read_end _ _ _ _ rfl]
  cases hbound : (body.scope ⟨p, [], p.strings⟩).bound with
  | nil => simp [Body.finish, Body.grow, Body.reportOpen, hbound, slotsOf]
  | cons n names =>
    have hslots : (slotsOf (n :: names)).isEmpty = false := rfl
    simp [Body.finish, Body.grow, Body.reportOpen, Body.emit, hbound, hslots]

theorem function_print {p : Program} {overload : Bool} {name : Location × String}
    (args : List (Location × KindName)) (rets : Option (Location × List (Location × KindName)))
    (stop openLoc closeLoc : Location) (body : Phrase) (ts : List Lexeme)
    (hname : functionNameFault? p name.2 overload = none) :
    function p false overload stop (⟨name.1, .ident name.2⟩ ::
        (args.map KindName.print ++ (Decl.printRets rets ++
          ⟨openLoc, .lparen⟩ :: (body.print ++ ⟨closeLoc, .rparen⟩ :: ts)))) =
      withBody p
        { name := name.2, entry := p.functions.length, loc := name.1,
          args := args.map (·.2.kind), rets := (rets.map (·.2.map (·.2.kind))).getD [], overload }
        [] stop (⟨openLoc, .lparen⟩ :: (body.print ++ ⟨closeLoc, .rparen⟩ :: ts)) := by
  have hlparen : endsKinds ⟨openLoc, .lparen⟩ = true := rfl
  cases rets with
  | none =>
    simp only [function, expectName, Body.current, Decl.printRets, List.nil_append,
      List.tail_cons, hname, takeWhile_kinds hlparen, dropWhile_kinds hlparen, kinds_print,
      kindFaults_print]
    rfl
  | some r =>
    obtain ⟨arrowLoc, kinds⟩ := r
    have harrow : endsKinds ⟨arrowLoc, .arrow⟩ = true := rfl
    simp only [function, expectName, Body.current, Decl.printRets, List.cons_append,
      List.tail_cons, hname, takeWhile_kinds harrow, dropWhile_kinds harrow,
      takeWhile_kinds hlparen, dropWhile_kinds hlparen, kinds_print, kindFaults_print]
    rfl

end Declaration

namespace Decl

open Declaration

theorem readAll_cons {p : Program} {d : Decl} (hd : d.Admissible p) (stop : Location)
    {ts : List Lexeme} (hts : atEnd ts = true) :
    readAll false stop p (d.print ++ ts) = readAll false stop (d.extend p) ts := by
  cases d with
  | const loc name value =>
    obtain ⟨hunused, hfunctions, v, hv, hlower, hupper⟩ := hd
    rw [Option.mem_def] at hv
    have hvalue := constValue_print hv hlower hupper name.2 stop hts
    simp only [print, List.cons_append]
    rw [readAll]
    simp only [Declaration.read, Declaration.const, expectName, Body.current, List.tail_cons,
      hvalue, hunused.globalNameFault? hfunctions, extend, hv, Option.getD_some, List.nil_append]
  | var loc name size =>
    obtain ⟨hunused, hfunctions, v, hv, hpos⟩ := hd
    rw [Option.mem_def] at hv
    obtain ⟨n, rfl, -, hn⟩ := exists_word hv
    have hle : ¬ n.toInt ≤ 0 := by omega
    simp only [print, List.cons_append, List.nil_append]
    rw [readAll]
    simp only [Declaration.read, Declaration.var, expectName, Body.current, List.tail_cons, hn,
      hle, if_false, hunused.globalNameFault? hfunctions, extend, hv, Option.getD_some,
      List.nil_append]
  | fn loc overload name args rets openLoc body closeLoc =>
    obtain ⟨hunused, hfunctions⟩ := hd
    have hname := hunused.functionNameFault? hfunctions
    have hread : Declaration.read p false stop
        ⟨loc, .decl (if overload then .fnOverload else .fn)⟩ =
          Declaration.function p false overload stop := by
      cases overload <;> rfl
    simp only [print, List.cons_append, List.append_assoc, List.nil_append]
    rw [readAll, hread, function_print _ _ _ _ _ _ _ hname, withBody_print]
    rfl

theorem readAll_printAll {p : Program} {decls : List Decl} (h : AllAdmissible p decls)
    (stop : Location) : readAll false stop p (printAll decls) = (extendAll p decls, []) := by
  induction decls generalizing p with
  | nil => simp [printAll, extendAll, readAll]
  | cons d decls ih =>
    have hprint : printAll (d :: decls) = d.print ++ printAll decls := List.flatMap_cons
    rw [hprint, readAll_cons h.1 stop (atEnd_printAll decls)]
    apply ih
    apply h.2

end Decl

def Source.ahead : (library : Bool) → Program × List Report
  | false => ({}, [])
  | true => Source.library.read {}

def SourceUnit.isFaultless (file : String) (internal : Bool) (cs : List Char) : Bool :=
  let scan := Scan.run (Location.start file) cs
  scan.errors.isEmpty && (Declaration.readAll internal scan.stop {} scan.lexemes).2.isEmpty

theorem SourceUnit.reports_eq_nil {u : SourceUnit}
    (h : isFaultless u.id u.internal u.text.toList = true) : (u.read {}).2 = [] := by
  simp only [isFaultless, Bool.and_eq_true, List.isEmpty_iff] at h
  simp only [read, TokenStream.ofText, h.1, List.isEmpty_nil, if_true, h.2]

theorem Source.reports_ahead (library : Bool) : (Source.ahead library).2 = [] := by
  cases library with
  | false => rfl
  | true =>
    apply SourceUnit.reports_eq_nil
    -- the text is taken apart first, as the characters of a long one are slow to get at
    show SourceUnit.isFaultless "<prelude>" true libraryText.toList = true
    unfold libraryText
    simp only [String.toList_append]
    decide +kernel

namespace Front

theorem run_of_nil (loader : Loader) {f : Front} (h : f.queue = []) : f.run loader = f := by
  unfold run
  split
  · rfl
  · next hcons => simp [h] at hcons

theorem run_of_queue (loader : Loader) {f : Front} {u : SourceUnit} {us : List SourceUnit}
    (h : f.queue = u :: us) : f.run loader = (step loader { f with queue := us } u).run loader := by
  rw [run]
  split
  · next hnil => simp [h] at hnil
  · next v vs hcons =>
    rw [h, List.cons.injEq] at hcons
    obtain ⟨rfl, rfl⟩ := hcons
    rfl

theorem run_of_cons (loader : Loader) {f : Front} {u : SourceUnit} {us : List SourceUnit}
    {p : Program} (h : f.queue = u :: us) (hread : u.read f.program = (p, [])) :
    f.run loader = ({ f with program := p, queue := us } : Front).run loader := by
  rw [run_of_queue loader h]
  simp only [step, hread, List.foldl_nil]

theorem run_initial (loader : Loader) {library : Bool} {u : SourceUnit} {p : Program}
    (hread : u.read (Source.ahead library).1 = (p, [])) :
    ((initial library u).run loader).program = p ∧
      ((initial library u).run loader).errors = [] := by
  have hqueue := queue_initial library u
  have hprogram := program_initial library u
  have herrors := errors_initial library u
  generalize initial library u = f at hqueue hprogram herrors ⊢
  cases library with
  | false =>
    have hsource : u.read f.program = (p, []) := by
      rw [hprogram]
      exact hread
    rw [run_of_cons loader hqueue hsource, run_of_nil loader rfl]
    exact ⟨rfl, herrors⟩
  | true =>
    have hahead := Source.reports_ahead true
    rcases hlibrary : Source.library.read {} with ⟨q, reports⟩
    simp only [Source.ahead, hlibrary] at hahead hread
    subst hahead
    rw [← hprogram] at hlibrary
    rw [run_of_cons loader hqueue hlibrary, run_of_cons loader rfl hread, run_of_nil loader rfl]
    exact ⟨rfl, herrors⟩

theorem unknownWords_of_wordsKnown {p : Program} (h : p.WordsKnown) : unknownWords p = [] := by
  apply List.flatMap_eq_nil_iff.mpr
  intro f hf
  apply List.filterMap_eq_nil_iff.mpr
  intro i hi
  split
  · next name hop => simpa using h f hf i hi name hop
  · rfl

end Front

/--
A source whose tokens are those of a syntax tree that keeps the rules is read without a fault, and
the result is the program that the tree stands for.
-/
theorem reading_agrees_with_syntax_trees {loader : Loader} {entry : String} {options : Options}
    {u : SourceUnit} {stream : TokenStream} {decls : List Decl}
    (hfetch : loader.fetch entry none = .ok u)
    (hstream : TokenStream.ofText u.id u.text = .ok stream)
    (hprint : stream.lexemes = Decl.printAll decls)
    (hadmissible : Decl.AllAdmissible (Source.ahead options.library).1 decls)
    (hwords : (Decl.extendAll (Source.ahead options.library).1 decls).WordsKnown) :
    parse loader entry options = .ok (Decl.extendAll (Source.ahead options.library).1 decls) := by
  have hinternal : u.internal = false := by
    unfold Loader.fetch at hfetch
    split at hfetch
    · simp at hfetch
    · split at hfetch
      · simp at hfetch
      · rw [← Except.ok.inj hfetch]
  have hread : u.read (Source.ahead options.library).1 =
      (Decl.extendAll (Source.ahead options.library).1 decls, []) := by
    simp only [SourceUnit.read, hstream, hinternal, hprint]
    apply Decl.readAll_printAll hadmissible
  have hrun := Front.run_initial loader hread
  simp only [parse, Program.read, hfetch, Front.finish, hrun.1, hrun.2,
    Front.unknownWords_of_wordsKnown hwords]
  rfl

def clamp : SourceTable :=
  SourceTable.ofList [("main",
    "const n 2 3 +\nvar m n\nfn* f int -> int ( let x in x 0 > if ( x else m load ) )\n" ++
      "fn main ( 1 loop dup n < ( f ) drop )")]

def clampTree : List Decl :=
  let loc := Location.mk "main.cin"
  [ .const (loc 1 1) (loc 1 7, "n") (.sum (loc 1 9, .int 2) (loc 1 11, .int 3) (loc 1 13)),
    .var (loc 2 1) (loc 2 5, "m") (loc 2 7, .const "n"),
    .fn (loc 3 1) true (loc 3 5, "f") [(loc 3 7, .type .int)]
      (some (loc 3 11, [(loc 3 14, .type .int)])) (loc 3 18)
      (.letIn (loc 3 20) (loc 3 24, "x") [] (loc 3 26)
        (.atom (loc 3 29) (.ident "x") (.atom (loc 3 31) (.int 0) (.atom (loc 3 33) (.prim .gt)
          (.condElse (loc 3 35) .nil (loc 3 38) (.atom (loc 3 40) (.ident "x") .nil)
            (loc 3 42) (.atom (loc 3 47) (.ident "m") (.atom (loc 3 49) (.prim .load) .nil))
            (loc 3 54) .nil)))))
      (loc 3 56),
    .fn (loc 4 1) false (loc 4 4, "main") [] none (loc 4 9)
      (.atom (loc 4 11) (.int 1)
        (.loop (loc 4 13)
          (.atom (loc 4 18) (.prim .dup) (.atom (loc 4 22) (.ident "n")
            (.atom (loc 4 24) (.prim .lt) .nil)))
          (loc 4 26) (.atom (loc 4 28) (.ident "f") .nil) (loc 4 30)
          (.atom (loc 4 32) (.prim .drop) .nil)))
      (loc 4 37)]

theorem reading_agrees_with_syntax_trees_clamp : ∃ u stream,
    clamp.loader.fetch "main" none = .ok u ∧ TokenStream.ofText u.id u.text = .ok stream ∧
      stream.lexemes = Decl.printAll clampTree ∧
      parse clamp.loader "main" { library := false } = .ok (Decl.extendAll {} clampTree) := by
  have hprint : ((clamp.loader.fetch "main" none).toOption.bind fun u =>
      (TokenStream.ofText u.id u.text).toOption.map (·.lexemes)) =
      some (Decl.printAll clampTree) := by
    decide +kernel
  have hadmissible : Decl.AllAdmissible {} clampTree := by
    decide +kernel
  have hwords : Front.unknownWords (Decl.extendAll {} clampTree) = [] := by
    decide +kernel
  cases hfetch : clamp.loader.fetch "main" none with
  | error e => simp [hfetch, Except.toOption] at hprint
  | ok u =>
    cases hstream : TokenStream.ofText u.id u.text with
    | error e => simp [hfetch, hstream, Except.toOption] at hprint
    | ok stream =>
      simp only [hfetch, hstream, Except.toOption, Option.bind_some, Option.map_some,
        Option.some.injEq] at hprint
      exact ⟨u, stream, rfl, hstream, hprint,
        reading_agrees_with_syntax_trees hfetch hstream hprint hadmissible
          (Front.wordsKnown_of_unknownWords hwords)⟩

end StackLang
