import StackLang.Proofs.Tables

/-!
This module contains how reading goes on after a fault. A word that starts a declaration starts one
whatever is wrong in front of it, except in three places where a token is taken whatever it is:
after `using`, where the size of a memory region is due, and where the operator of a constant is
due.
-/

namespace StackLang

namespace Program

structure Extends (p q : Program) : Prop where
  functions : p.functions <+: q.functions
  memories : p.memories <+: q.memories
  constants : p.constants <+: q.constants
  strings : p.strings <+: q.strings

theorem Extends.refl (p : Program) : Extends p p :=
  ⟨List.prefix_rfl, List.prefix_rfl, List.prefix_rfl, List.prefix_rfl⟩

theorem Extends.trans {p q r : Program} (h : Extends p q) (h' : Extends q r) : Extends p r :=
  ⟨h.functions.trans h'.functions, h.memories.trans h'.memories, h.constants.trans h'.constants,
    h.strings.trans h'.strings⟩

end Program

theorem prefix_intern (strings : List String) (s : String) : strings <+: (intern strings s).2 := by
  unfold intern
  split
  · exact List.prefix_rfl
  · exact List.prefix_append strings [s]

namespace Declaration

open Body (current)

theorem extends_const (p : Program) (stop : Location) (ts : List Lexeme) :
    p.Extends (const p stop ts).program := by
  unfold const
  split
  · exact .refl p
  · split
    · exact .refl p
    · split
      · exact .refl p
      · exact ⟨List.prefix_rfl, List.prefix_rfl, List.prefix_append _ _, List.prefix_rfl⟩

theorem extends_var (p : Program) (stop : Location) (ts : List Lexeme) :
    p.Extends (var p stop ts).program := by
  unfold var
  split
  · exact .refl p
  · simp only
    split
    · exact .refl p
    · split
      · exact .refl p
      · split
        · exact .refl p
        · exact ⟨List.prefix_rfl, List.prefix_append _ _, List.prefix_rfl, List.prefix_rfl⟩

theorem extends_usingFile (p : Program) (stop : Location) (ts : List Lexeme) :
    p.Extends (usingFile p stop ts).program := by
  unfold usingFile
  simp only
  split <;> exact .refl p

theorem extends_withBody (p : Program) (f : Function) (faults : List SyntaxError) (stop : Location)
    (ts : List Lexeme) : p.Extends (withBody p f faults stop ts).program := by
  unfold withBody
  split
  · next us =>
    refine ⟨List.prefix_append _ _, List.prefix_rfl, List.prefix_rfl, ?_⟩
    apply Body.kept_strings_read (p.strings <+: ·) _ List.prefix_rfl us
    intro strings s h
    exact h.trans (prefix_intern strings s)
  · exact ⟨List.prefix_append _ _, List.prefix_rfl, List.prefix_rfl, List.prefix_rfl⟩

theorem extends_function (p : Program) (internal overload : Bool) (stop : Location)
    (ts : List Lexeme) : p.Extends (function p internal overload stop ts).program := by
  unfold function
  split
  · exact .refl p
  · apply extends_withBody

theorem extends_read (p : Program) (internal : Bool) (stop : Location) (t : Lexeme)
    (ts : List Lexeme) : p.Extends (read p internal stop t ts).program := by
  unfold read
  split
  · apply extends_function
  · apply extends_function
  · apply extends_const
  · apply extends_var
  · apply extends_usingFile
  · exact .refl p

theorem extends_readAll (internal : Bool) (stop : Location) (p : Program) (ts : List Lexeme) :
    p.Extends (readAll internal stop p ts).1 := by
  fun_induction readAll internal stop p ts with
  | case1 p => exact .refl p
  | case2 p t ts one q reports hrest ih =>
    rw [hrest] at ih
    exact (extends_read p internal stop t ts).trans ih

def isOperand (p : Program) (t : Lexeme) : Bool :=
  match t.token with
  | .int _ => true
  | .ident name => (p.constant? name).isSome
  | _ => false

/--
The tokens from the place on where the declaration that the tokens start with takes a token whatever
it is, if there is such a place.
-/
def blindSpot? (p : Program) : List Lexeme → Option (List Lexeme)
  | ⟨_, .decl .usingFile⟩ :: ts => some ts
  | ⟨_, .decl .var⟩ :: ⟨_, .ident _⟩ :: ts => some ts
  | ⟨_, .decl .const⟩ :: ⟨_, .ident _⟩ :: a :: b :: ts =>
    if isOperand p a && isOperand p b then some ts else none
  | _ => none

theorem isDeclarator_of_isOperand {p : Program} {t : Lexeme} (h : isOperand p t = true) :
    t.token.isDeclarator = false := by
  unfold isOperand at h
  split at h
  · next htoken => rw [htoken]; rfl
  · next htoken => rw [htoken]; rfl
  · simp at h

theorem leaves_blindSpot? {p : Program} {t : Lexeme} {ts us : List Lexeme}
    (h : blindSpot? p (t :: ts) = some us) : Leaves ts us := by
  unfold blindSpot? at h
  split at h
  · next heq =>
    obtain ⟨-, rfl⟩ := List.cons.inj heq
    rw [Option.some.inj h]
    exact Leaves.refl us
  · next heq =>
    obtain ⟨-, rfl⟩ := List.cons.inj heq
    rw [Option.some.inj h]
    exact (Leaves.refl us).cons rfl
  · next heq =>
    obtain ⟨-, rfl⟩ := List.cons.inj heq
    split at h
    · next hoperands =>
      rw [Bool.and_eq_true] at hoperands
      rw [Option.some.inj h]
      exact (((Leaves.refl us).cons (isDeclarator_of_isOperand hoperands.2)).cons
        (isDeclarator_of_isOperand hoperands.1)).cons rfl
    · simp at h
  · simp at h

theorem operand_of_isOperand {p : Program} {t : Lexeme} (h : isOperand p t = true)
    (stop : Location) (ts : List Lexeme) : ∃ n, operand p stop (t :: ts) = (.ok n, ts) := by
  have hend : atEnd (t :: ts) = false := isDeclarator_of_isOperand h
  unfold isOperand at h
  split at h
  · next n htoken => exact ⟨n, by simp [operand, current, hend, htoken]⟩
  · next name htoken =>
    obtain ⟨c, hc⟩ := Option.isSome_iff_exists.mp h
    exact ⟨c.value, by simp [operand, current, hend, htoken, hc]⟩
  · simp at h

theorem isOperand_of_operand {p : Program} {stop : Location} {ts us : List Lexeme} {n : Int64}
    (h : operand p stop ts = (.ok n, us)) : ∃ t, ts = t :: us ∧ isOperand p t = true := by
  cases ts with
  | nil => simp [operand, current] at h
  | cons t ts =>
    cases ht : isOperand p t with
    | true =>
      obtain ⟨m, hm⟩ := operand_of_isOperand ht stop ts
      rw [hm, Prod.mk.injEq] at h
      exact ⟨t, by rw [h.2], ht⟩
    | false =>
      unfold isOperand at ht
      unfold operand at h
      simp only [current] at h
      split at ht
      · simp at ht
      · next name htoken =>
        rw [Option.isSome_eq_false_iff, Option.isNone_iff_eq_none] at ht
        simp [htoken, ht] at h
      · next hint hident =>
        split at h
        · next m htoken => exact absurd htoken (hint m)
        · next name htoken => exact absurd htoken (hident name)
        · simp at h

theorem constValue_of_operands {p : Program} {a b : Lexeme} (ha : isOperand p a = true)
    (hb : isOperand p b = true) (name : String) (stop : Location) (ts : List Lexeme) :
    (constValue p name stop (a :: b :: ts)).2 = ts.tail := by
  obtain ⟨m, hm⟩ := operand_of_isOperand ha stop (b :: ts)
  obtain ⟨n, hn⟩ := operand_of_isOperand hb stop ts
  have hend : atEnd (b :: ts) = false := isDeclarator_of_isOperand hb
  simp only [constValue, hm, hn, hend]
  split
  · next h => simp at h
  · split
    · rfl
    · split
      · rfl
      · rfl

theorem leaves_constValue_of_lacking {p : Program} {ts : List Lexeme}
    (h : ∀ a b us, ts = a :: b :: us → (isOperand p a && isOperand p b) = false) (name : String)
    (stop : Location) : Leaves ts (constValue p name stop ts).2 := by
  have hfirst := leaves_operand p stop ts
  unfold constValue
  split
  · next heq =>
    rw [heq] at hfirst
    exact hfirst
  · next m us heq =>
    rw [heq] at hfirst
    have hsecond := hfirst.trans (leaves_operand p stop us)
    split
    · exact hfirst
    · split
      · next heq' =>
        rw [heq'] at hsecond
        exact hsecond
      · next n vs heq' =>
        obtain ⟨a, rfl, ha⟩ := isOperand_of_operand heq
        obtain ⟨b, rfl, hb⟩ := isOperand_of_operand heq'
        have := h a b vs rfl
        simp [ha, hb] at this

theorem leaves_const_rest (p : Program) (stop loc : Location) (name : String) (ts : List Lexeme) :
    Leaves (constValue p name stop ts).2 (const p stop (⟨loc, .ident name⟩ :: ts)).rest := by
  unfold const
  simp only [expectName, current, List.tail_cons]
  split
  · next h =>
    rw [h]
    exact leaves_skip _
  · next h =>
    rw [h]
    split
    · exact Leaves.refl _
    · exact Leaves.refl _

theorem leaves_var_rest (p : Program) (stop loc : Location) (name : String) (ts : List Lexeme) :
    Leaves ts.tail (var p stop (⟨loc, .ident name⟩ :: ts)).rest := by
  unfold var
  simp only [expectName, current, List.tail_cons]
  split
  · exact leaves_skip _
  · split
    · exact Leaves.refl _
    · split
      · exact Leaves.refl _
      · exact Leaves.refl _

theorem leaves_usingFile_rest (p : Program) (stop : Location) (ts : List Lexeme) :
    Leaves ts.tail (usingFile p stop ts).rest := by
  unfold usingFile
  simp only
  split
  · exact Leaves.refl _
  · exact Leaves.refl _
  · exact leaves_skip _

theorem leaves_read_of_some {p : Program} {t : Lexeme} {ts us : List Lexeme}
    (h : blindSpot? p (t :: ts) = some us) (internal : Bool) (stop : Location) :
    Leaves us.tail (read p internal stop t ts).rest := by
  unfold blindSpot? at h
  split at h
  · next heq =>
    obtain ⟨rfl, rfl⟩ := List.cons.inj heq
    rw [← Option.some.inj h]
    exact leaves_usingFile_rest p stop ts
  · next l loc name vs heq =>
    obtain ⟨rfl, rfl⟩ := List.cons.inj heq
    rw [← Option.some.inj h]
    exact leaves_var_rest p stop loc name vs
  · next l loc name a b vs heq =>
    obtain ⟨rfl, rfl⟩ := List.cons.inj heq
    split at h
    · next hoperands =>
      rw [Bool.and_eq_true] at hoperands
      rw [← Option.some.inj h, ← constValue_of_operands hoperands.1 hoperands.2 name stop vs]
      exact leaves_const_rest p stop loc name _
    · simp at h
  · simp at h

theorem failed_of_ne_ident {ts : List Lexeme} (h : ¬ ∃ loc name us, ts = ⟨loc, .ident name⟩ :: us)
    (d : Declarator) (stop : Location) : ∃ e, expectName d stop ts = .error e := by
  cases hname : expectName d stop ts with
  | error e => exact ⟨e, rfl⟩
  | ok r =>
    obtain ⟨us, hus⟩ := exists_of_expectName hname
    exact absurd ⟨_, _, us, hus⟩ h

theorem leaves_read_of_none {p : Program} {t : Lexeme} {ts : List Lexeme}
    (h : blindSpot? p (t :: ts) = none) (internal : Bool) (stop : Location) :
    Leaves ts (read p internal stop t ts).rest := by
  rcases t with ⟨l, token⟩
  unfold read
  simp only
  split
  · exact leaves_function p internal false stop ts
  · exact leaves_function p internal true stop ts
  · by_cases hname : ∃ loc name us, ts = ⟨loc, .ident name⟩ :: us
    · obtain ⟨loc, name, us, rfl⟩ := hname
      refine (Leaves.trans ?_ (leaves_const_rest p stop loc name us)).cons rfl
      apply leaves_constValue_of_lacking
      rintro a b vs rfl
      simpa [blindSpot?] using h
    · obtain ⟨e, he⟩ := failed_of_ne_ident hname .const stop
      simp only [const, he]
      exact leaves_skip ts
  · by_cases hname : ∃ loc name us, ts = ⟨loc, .ident name⟩ :: us
    · obtain ⟨loc, name, us, rfl⟩ := hname
      simp [blindSpot?] at h
    · obtain ⟨e, he⟩ := failed_of_ne_ident hname .var stop
      simp only [var, he]
      exact leaves_skip ts
  · simp [blindSpot?] at h
  · exact leaves_skip ts

/--
Reading `ts` into the program `p` comes to begin a declaration at the first token of `us`, when the
program is `q`.
-/
inductive Begins (internal : Bool) (stop : Location) :
    Program → List Lexeme → Program → List Lexeme → Prop
  | here {p t ts} : Begins internal stop p (t :: ts) p (t :: ts)
  | later {p t ts q us}
    (h : Begins internal stop (read p internal stop t ts).program (read p internal stop t ts).rest
      q us) : Begins internal stop p (t :: ts) q us

/-- The tokens start where a declaration that reading comes to takes a token whatever it is. -/
def Swallowed (internal : Bool) (stop : Location) (p : Program) (ts us : List Lexeme) : Prop :=
  ∃ q vs, Begins internal stop p ts q vs ∧ blindSpot? q vs = some us

section

variable {internal : Bool} {stop : Location} {p q : Program} {d t : Lexeme}
  {ts us rest after : List Lexeme}

theorem Begins.length_le (h : Begins internal stop p ts q us) : us.length ≤ ts.length := by
  induction h with
  | here => exact Nat.le_refl _
  | later _ ih => exact Nat.le_trans ih (Nat.le_succ_of_le (length_read_le ..))

theorem Begins.kept (h : Begins internal stop p ts q (t :: us)) :
    (read q internal stop t us).reports <:+: (readAll internal stop p ts).2 ∧
      (read q internal stop t us).program.Extends (readAll internal stop p ts).1 := by
  generalize hvs : t :: us = vs at h
  induction h with
  | here =>
    obtain ⟨rfl, rfl⟩ := List.cons.inj hvs
    rw [readAll]
    exact ⟨(List.prefix_append _ _).isInfix, extends_readAll ..⟩
  | later _ ih =>
    obtain ⟨hreports, hprogram⟩ := ih hvs
    rw [readAll]
    exact ⟨hreports.trans (List.suffix_append _ _).isInfix, hprogram⟩

theorem Leaves.length_le (h : Leaves ts rest) : rest.length ≤ ts.length := by
  obtain ⟨taken, rfl, -⟩ := h
  simp

theorem Leaves.suffix (h : Leaves ts rest) (hd : d.token.isDeclarator = true)
    (hsuffix : d :: after <:+ ts) : d :: after <:+ rest := by
  obtain ⟨taken, rfl, htaken⟩ := h
  induction taken with
  | nil => exact hsuffix
  | cons t taken ih =>
    obtain ⟨ht, htaken⟩ := List.forall_mem_cons.mp htaken
    rcases List.suffix_cons_iff.mp hsuffix with heq | hsuffix
    · rw [(List.cons.inj heq).1, ht] at hd
      simp at hd
    · exact ih htaken hsuffix

theorem begins_or_swallowed (hd : d.token.isDeclarator = true) (hsuffix : d :: after <:+ ts) :
    (∃ q, Begins internal stop p ts q (d :: after)) ∨
      Swallowed internal stop p ts (d :: after) := by
  fun_induction readAll internal stop p ts with
  | case1 p => simp at hsuffix
  | case2 p t ts one _ _ _ ih =>
    -- what holds after the first declaration holds from there on
    have hlater : d :: after <:+ one.rest →
        (∃ q, Begins internal stop p (t :: ts) q (d :: after)) ∨
          Swallowed internal stop p (t :: ts) (d :: after) := by
      intro hrest
      rcases ih hrest with ⟨q, hq⟩ | ⟨q, vs, hvs, hspot⟩
      · exact Or.inl ⟨q, .later hq⟩
      · exact Or.inr ⟨q, vs, .later hvs, hspot⟩
    rcases List.suffix_cons_iff.mp hsuffix with heq | hsuffix
    · rw [heq]
      exact Or.inl ⟨p, .here⟩
    · cases hspot : blindSpot? p (t :: ts) with
      | none => exact hlater ((leaves_read_of_none hspot internal stop).suffix hd hsuffix)
      | some us =>
        have hus := (leaves_blindSpot? hspot).suffix hd hsuffix
        cases us with
        | nil => simp at hus
        | cons u us =>
          rcases List.suffix_cons_iff.mp hus with heq | hus
          · rw [heq]
            exact Or.inr ⟨p, t :: ts, .here, hspot⟩
          · exact hlater ((leaves_read_of_some hspot internal stop).suffix hd hus)

theorem length_lt_of_blindSpot? (h : blindSpot? p us = some after) : after.length < us.length := by
  cases us with
  | nil => simp [blindSpot?] at h
  | cons t us => exact Nat.lt_succ_of_le (leaves_blindSpot? h).length_le

theorem not_begins_of_swallowed (h : Swallowed internal stop p ts (d :: after)) :
    ¬ Begins internal stop p ts q (d :: after) := by
  obtain ⟨r, vs, hvs, hspot⟩ := h
  intro hbegins
  have hlength := length_lt_of_blindSpot? hspot
  induction hvs with
  | @here p t ts =>
    cases hbegins with
    | here => exact absurd hlength (Nat.lt_irrefl _)
    | later hlater =>
      have hleft := (leaves_read_of_some hspot internal stop).length_le
      have hbegun := hlater.length_le
      simp only [List.tail_cons, List.length_cons] at hleft hbegun
      omega
  | @later p t ts _ vs hrest ih =>
    cases hbegins with
    | here =>
      have hvs := Nat.le_trans hrest.length_le (length_read_le ..)
      simp only [List.length_cons] at hlength
      omega
    | later hlater => exact ih hspot hlater hlength

end

end Declaration

open Declaration in
/--
In a text of tokens every word that starts a declaration starts one, whatever is wrong in front of
it, just if it does not stand where the declaration before it takes a token whatever it is. What a
declaration that has been started reports is reported, and what it declares is declared.
-/
theorem declarations_start_outside_blind_spots {u : SourceUnit} {stream : TokenStream}
    (hstream : TokenStream.ofText u.id u.text = .ok stream) (p : Program) {d : Lexeme}
    {after : List Lexeme} (hd : d.token.isDeclarator = true)
    (hsuffix : d :: after <:+ stream.lexemes) :
    ((∃ q, Begins u.internal stream.stop p stream.lexemes q (d :: after)) ↔
      ¬ Swallowed u.internal stream.stop p stream.lexemes (d :: after)) ∧
    ∀ q, Begins u.internal stream.stop p stream.lexemes q (d :: after) →
      (read q u.internal stream.stop d after).reports <:+: (u.read p).2 ∧
        (read q u.internal stream.stop d after).program.Extends (u.read p).1 := by
  refine ⟨⟨?_, ?_⟩, ?_⟩
  · rintro ⟨q, hbegins⟩ hswallowed
    exact not_begins_of_swallowed hswallowed hbegins
  · intro hkept
    rcases begins_or_swallowed hd hsuffix with hbegins | hswallowed
    · exact hbegins
    · exact absurd hswallowed hkept
  · intro q hbegins
    simp only [SourceUnit.read, hstream]
    exact hbegins.kept

/-- The size of `x` is missing, and the word `fn` is taken for it. -/
def misread : SourceUnit where
  id := "main.cin"
  text := "var x fn f ( in ) fn main ( )"

def misreadFunctions : List Lexeme :=
  let loc := Location.mk "main.cin" 1
  [⟨loc 7, .decl .fn⟩, ⟨loc 10, .ident "f"⟩, ⟨loc 12, .lparen⟩, ⟨loc 14, .kwIn⟩, ⟨loc 17, .rparen⟩,
    ⟨loc 19, .decl .fn⟩, ⟨loc 22, .ident "main"⟩, ⟨loc 27, .lparen⟩, ⟨loc 29, .rparen⟩]

def misreadStream : TokenStream where
  lexemes := ⟨⟨"main.cin", 1, 1⟩, .decl .var⟩ :: ⟨⟨"main.cin", 1, 5⟩, .ident "x"⟩ ::
    misreadFunctions
  stop := ⟨"main.cin", 1, 30⟩

theorem ofText_misread : TokenStream.ofText misread.id misread.text = .ok misreadStream := by
  have hparts : (TokenStream.ofText misread.id misread.text).toOption.map
      (fun s => (s.lexemes, s.stop)) = some (misreadStream.lexemes, misreadStream.stop) := by
    decide +kernel
  cases h : TokenStream.ofText misread.id misread.text with
  | error e => simp [h, Except.toOption] at hparts
  | ok s =>
    simp only [h, Except.toOption, Option.map_some, Option.some.injEq, Prod.mk.injEq] at hparts
    rcases s with ⟨lexemes, stop⟩
    obtain ⟨rfl, rfl⟩ := hparts
    rfl

open Declaration in
theorem declarations_start_outside_blind_spots_misread :
    ∃ d after, TokenStream.ofText misread.id misread.text = .ok misreadStream ∧
      d.token = .decl .fn ∧ d :: after <:+ misreadStream.lexemes ∧
      ¬ Swallowed false misreadStream.stop {} misreadStream.lexemes (d :: after) ∧
      ∃ q, Begins false misreadStream.stop {} misreadStream.lexemes q (d :: after) ∧
        (read q false misreadStream.stop d after).program.Extends (misread.read {}).1 := by
  have hsuffix : misreadFunctions.drop 5 <:+ misreadStream.lexemes :=
    (List.drop_suffix 5 misreadFunctions).trans (List.suffix_append [_, _] misreadFunctions)
  obtain ⟨hiff, hkept⟩ := declarations_start_outside_blind_spots ofText_misread {} rfl hsuffix
  have hbegins : Begins false misreadStream.stop {} misreadStream.lexemes {}
      (misreadFunctions.drop 5) := Begins.later Begins.here
  exact ⟨_, _, ofText_misread, rfl, hsuffix, hiff.mp ⟨_, hbegins⟩, _, hbegins, (hkept _ hbegins).2⟩

open Declaration in
/-- The first function is not read at all: neither its name nor its fault appears. -/
theorem size_swallows_declaration :
    ∃ d after, TokenStream.ofText misread.id misread.text = .ok misreadStream ∧
      d.token = .decl .fn ∧ d :: after <:+ misreadStream.lexemes ∧
      (∀ q, ¬ Begins false misreadStream.stop {} misreadStream.lexemes q (d :: after)) ∧
      (misread.read {}).1.functions.map (·.name) = ["main"] ∧
      (misread.read {}).2 = [.fault ⟨⟨"main.cin", 1, 7⟩, .expectedSize "x" (.decl .fn)⟩] := by
  have hsuffix : misreadFunctions <:+ misreadStream.lexemes :=
    List.suffix_append [_, _] misreadFunctions
  have hswallowed : Swallowed false misreadStream.stop {} misreadStream.lexemes misreadFunctions :=
    ⟨{}, _, .here, rfl⟩
  refine ⟨_, _, ofText_misread, rfl, hsuffix, ?_, by decide +kernel, by decide +kernel⟩
  intro q
  exact not_begins_of_swallowed hswallowed

end StackLang
