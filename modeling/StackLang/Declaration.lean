import StackLang.Body

/-!
This module contains declarations: reading one extends the program by what it declares. After a
fault the tokens up to the next declaration are skipped, so that later faults are found as well.
-/

namespace StackLang

inductive Report
  | fault (error : SyntaxError)
  | use (loc : Location) (name : String)
deriving DecidableEq

namespace Declaration

structure Outcome where
  program : Program
  reports : List Report
  rest : List Lexeme

open Body (current length_dropWhile_le)

def skip (ts : List Lexeme) : List Lexeme := ts.dropWhile fun t => !t.token.isDeclarator

/-- Whether no token is left before the next declaration. -/
def atEnd : List Lexeme → Bool
  | [] => true
  | t :: _ => t.token.isDeclarator

def failed (p : Program) (e : SyntaxError) (ts : List Lexeme) : Outcome :=
  ⟨p, [.fault e], skip ts⟩

def takenName? (p : Program) (name : String) : Option SyntaxFault :=
  match p.constants.find? (·.name = name) with
  | some constant => some (.definedAsConstant name constant.loc)
  | none => match p.memories.find? (·.name = name) with
    | some memory => some (.definedAsMemory name memory.loc)
    | none => none

def globalNameFault? (p : Program) (name : String) : Option SyntaxFault :=
  if p.functions.any (·.name = name) then some (.definedAsFunction name) else takenName? p name

def functionNameFault? (p : Program) (name : String) (overload : Bool) : Option SyntaxFault :=
  match takenName? p name with
  | some fault => some fault
  | none => match p.functions.filter (·.name = name) with
    | [] => none
    | first :: others =>
      if name = "main" then some (.duplicateMain first.loc)
      else if overload && (first :: others).all (·.overload) then none
      else
        let conflict := ((first :: others).find? (!·.overload)).getD first
        some (.duplicateFunction name conflict.loc)

def expectName (d : Declarator) (stop : Location) (ts : List Lexeme) :
    Except SyntaxError (String × Location) :=
  let t := current stop ts
  match t.token with
  | .ident name => .ok (name, t.loc)
  | found => .error ⟨t.loc, .expectedName d found⟩

/-- An integer or the name of a constant. The word of the next declaration is not taken. -/
def operand (p : Program) (stop : Location) (ts : List Lexeme) :
    Except SyntaxError Int64 × List Lexeme :=
  let t := current stop ts
  let rest := if atEnd ts then ts else ts.tail
  match t.token with
  | .int n => (.ok n, rest)
  | .ident name =>
    match p.constant? name with
    | some constant => (.ok constant.value, rest)
    | none => (.error ⟨t.loc, .unknownConstant name⟩, rest)
  | found => (.error ⟨t.loc, .expectedOperand found⟩, rest)

def apply (name : String) (a b : Int64) (t : Lexeme) : Except SyntaxError Int64 :=
  let checked (i : Int) : Except SyntaxError Int64 :=
    match word64? i with
    | some n => .ok n
    | none => .error ⟨t.loc, .constantOverflow name⟩
  match t.token with
  | .prim .add => checked (a.toInt + b.toInt)
  | .prim .mul => checked (a.toInt * b.toInt)
  | found => .error ⟨t.loc, .unsupportedOperator found⟩

/-- The value of the constant called `name`: one operand, or two and an operator. -/
def constValue (p : Program) (name : String) (stop : Location) (ts : List Lexeme) :
    Except SyntaxError Int64 × List Lexeme :=
  match operand p stop ts with
  | (.error e, ts) => (.error e, ts)
  | (.ok a, ts) =>
    if atEnd ts then (.ok a, ts)
    else match operand p stop ts with
      | (.error e, ts) => (.error e, ts)
      | (.ok b, ts) =>
        match apply name a b (current stop ts) with
        | .error e => (.error e, ts.tail)
        | .ok n =>
          if atEnd ts.tail then (.ok n, ts.tail)
          else (.error ⟨(current stop ts.tail).loc, .constantTooComplex name⟩, ts.tail)

def const (p : Program) (stop : Location) (ts : List Lexeme) : Outcome :=
  match expectName .const stop ts with
  | .error e => failed p e ts
  | .ok (name, loc) =>
    match constValue p name stop ts.tail with
    | (.error e, rest) => failed p e rest
    | (.ok value, rest) =>
      match globalNameFault? p name with
      | some fault => ⟨p, [.fault ⟨loc, fault⟩], rest⟩
      | none => ⟨{ p with constants := p.constants ++ [⟨name, value, loc⟩] }, [], rest⟩

def size (p : Program) (name : String) (t : Lexeme) : Except SyntaxError Int64 :=
  match t.token with
  | .int n => .ok n
  | .ident c =>
    match p.constant? c with
    | some constant => .ok constant.value
    | none => .error ⟨t.loc, .unknownConstant c⟩
  | found => .error ⟨t.loc, .expectedSize name found⟩

def var (p : Program) (stop : Location) (ts : List Lexeme) : Outcome :=
  match expectName .var stop ts with
  | .error e => failed p e ts
  | .ok (name, loc) =>
    let t := current stop ts.tail
    let rest := ts.tail.tail
    match size p name t with
    | .error e => failed p e rest
    | .ok n =>
      if n.toInt ≤ 0 then ⟨p, [.fault ⟨t.loc, .sizeNotPositive name⟩], rest⟩
      else match globalNameFault? p name with
        | some fault => ⟨p, [.fault ⟨loc, fault⟩], rest⟩
        | none => ⟨{ p with memories := p.memories ++ [⟨name, n.toInt.toNat, loc⟩] }, [], rest⟩

def usingFile (p : Program) (stop : Location) (ts : List Lexeme) : Outcome :=
  let t := current stop ts
  match t.token with
  | .ident name | .str name => ⟨p, [.use t.loc name], ts.tail⟩
  | found => failed p ⟨t.loc, .expectedFile found⟩ ts.tail

def endsKinds (t : Lexeme) : Bool :=
  match t.token with
  | .lparen | .arrow | .decl _ => true
  | _ => false

def kinds (ts : List Lexeme) : List Kind := ts.filterMap (·.token.kind?)

def kindFaults (ts : List Lexeme) : List SyntaxError :=
  (ts.filter (·.token.kind?.isNone)).map fun t => ⟨t.loc, .unknownType t.token⟩

/-- The body of the function `f`, whose signature ends in front of `ts`. -/
def withBody (p : Program) (f : Function) (faults : List SyntaxError) (stop : Location)
    (ts : List Lexeme) : Outcome :=
  match ts with
  | ⟨_, .lparen⟩ :: ts =>
    let (body, rest) := Body.read ⟨f.name, p, stop⟩ { strings := p.strings } ts
    let body := body.reportOpen
    let f := { f with code := body.code, bindings := body.bindings }
    ⟨{ p with functions := p.functions ++ [f], strings := body.strings },
      (faults ++ body.faults).map .fault, rest⟩
  | ts =>
    let t := current stop ts
    ⟨{ p with functions := p.functions ++ [f] },
      (faults ++ [SyntaxError.mk t.loc (.expectedBody f.name t.token)]).map .fault, skip ts⟩

def function (p : Program) (internal overload : Bool) (stop : Location) (ts : List Lexeme) :
    Outcome :=
  match expectName (if overload then .fnOverload else .fn) stop ts with
  | .error e => failed p e ts
  | .ok (name, loc) =>
    let nameFaults := ((functionNameFault? p name overload).map (SyntaxError.mk loc)).toList
    let argTokens := ts.tail.takeWhile (!endsKinds ·)
    let afterArgs := ts.tail.dropWhile (!endsKinds ·)
    let (retTokens, rest) := match afterArgs with
      | ⟨_, .arrow⟩ :: ts => (ts.takeWhile (!endsKinds ·), ts.dropWhile (!endsKinds ·))
      | ts => ([], ts)
    let f : Function :=
      { name, entry := p.functions.length, loc, args := kinds argTokens, rets := kinds retTokens,
        overload, internal }
    withBody p f (nameFaults ++ kindFaults argTokens ++ kindFaults retTokens) stop rest

def read (p : Program) (internal : Bool) (stop : Location) (t : Lexeme) (ts : List Lexeme) :
    Outcome :=
  match t.token with
  | .decl .fn => function p internal false stop ts
  | .decl .fnOverload => function p internal true stop ts
  | .decl .const => const p stop ts
  | .decl .var => var p stop ts
  | .decl .usingFile => usingFile p stop ts
  | found => failed p ⟨t.loc, .expectedDeclaration found⟩ ts

theorem length_skip_le (ts : List Lexeme) : (skip ts).length ≤ ts.length :=
  length_dropWhile_le _ ts

theorem length_tail_le {α : Type} (l : List α) : l.tail.length ≤ l.length := by
  simp

theorem length_operand_le (p : Program) (stop : Location) (ts : List Lexeme) :
    (operand p stop ts).2.length ≤ ts.length := by
  have : (if atEnd ts then ts else ts.tail).length ≤ ts.length := by split <;> simp
  unfold operand
  simp only
  split
  · exact this
  · split <;> exact this
  · exact this

theorem length_constValue_le (p : Program) (name : String) (stop : Location) (ts : List Lexeme) :
    (constValue p name stop ts).2.length ≤ ts.length := by
  have first := length_operand_le p stop ts
  unfold constValue
  split
  · next h => rw [h] at first; exact first
  · next us h =>
    rw [h] at first
    simp only at first
    have second := length_operand_le p stop us
    split
    · exact first
    · split
      · next h => rw [h] at second; simp only at second ⊢; omega
      · next h =>
        rw [h] at second
        simp only at second
        split
        · simp only [List.length_tail]; omega
        · split <;> simp only [List.length_tail] <;> omega

theorem length_withBody_le (p : Program) (f : Function) (faults : List SyntaxError)
    (stop : Location) (ts : List Lexeme) :
    (withBody p f faults stop ts).rest.length ≤ ts.length := by
  unfold withBody
  split
  · next us =>
    have := Body.length_read_le ⟨f.name, p, stop⟩ { strings := p.strings } us
    simp only [List.length_cons]
    omega
  · exact length_skip_le _

theorem length_function_le (p : Program) (internal overload : Bool) (stop : Location)
    (ts : List Lexeme) : (function p internal overload stop ts).rest.length ≤ ts.length := by
  unfold function
  split
  · exact length_skip_le _
  · simp only
    refine Nat.le_trans (length_withBody_le _ _ _ _ _) ?_
    have args := length_dropWhile_le (fun t => !endsKinds t) ts.tail
    have tail := length_tail_le ts
    split
    · next us h =>
      rw [h, List.length_cons] at args
      have rets := length_dropWhile_le (fun t => !endsKinds t) us
      simp only
      omega
    · simp only
      omega

theorem length_read_le (p : Program) (internal : Bool) (stop : Location) (t : Lexeme)
    (ts : List Lexeme) : (read p internal stop t ts).rest.length ≤ ts.length := by
  unfold read
  split
  · exact length_function_le ..
  · exact length_function_le ..
  · unfold const
    split
    · exact length_skip_le _
    · next name loc _ =>
      have value := length_constValue_le p name stop ts.tail
      have tail := length_tail_le ts
      split
      · next h =>
        rw [h] at value
        exact Nat.le_trans (length_skip_le _) (Nat.le_trans value tail)
      · next h =>
        rw [h] at value
        split <;> exact Nat.le_trans value tail
  · unfold var
    have tails : ts.tail.tail.length ≤ ts.length := by simp only [List.length_tail]; omega
    split
    · exact length_skip_le _
    · simp only
      split
      · exact Nat.le_trans (length_skip_le _) tails
      · split
        · exact tails
        · split <;> exact tails
  · unfold usingFile
    simp only
    split
    · exact length_tail_le ts
    · exact length_tail_le ts
    · exact Nat.le_trans (length_skip_le _) (length_tail_le ts)
  · exact length_skip_le _

def readAll (internal : Bool) (stop : Location) (p : Program) : List Lexeme → Program × List Report
  | [] => (p, [])
  | t :: ts =>
    let one := read p internal stop t ts
    let (p, reports) := readAll internal stop one.program one.rest
    (p, one.reports ++ reports)
termination_by ts => ts.length
decreasing_by exact Nat.lt_succ_of_le (length_read_le ..)

end Declaration

/-- Reads a source. If some lexeme is faulty, that is all it reports. -/
def SourceUnit.read (u : SourceUnit) (p : Program) : Program × List Report :=
  match TokenStream.ofText u.id u.text with
  | .error errors => (p, errors.map fun e => .fault ⟨e.loc, .lexical e.fault⟩)
  | .ok stream => Declaration.readAll u.internal stream.stop p stream.lexemes

end StackLang
