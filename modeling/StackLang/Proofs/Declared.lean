import Mathlib.Data.List.TakeWhile
import StackLang.Proofs.WellRead

/-!
This module contains what a source declares, read off its tokens. In a source without a fault every
word that starts a declaration does so, and reading takes up what these words announce, in order.
-/

namespace StackLang

/-- A function without what reading its body and placing it in a program adds. -/
def Function.head (f : Function) : Function :=
  { f with entry := 0, called := false, code := [], bindings := [] }

namespace Declaration

def use? : List Lexeme → Option (Location × String)
  | ⟨_, .decl .usingFile⟩ :: ⟨loc, .ident name⟩ :: _ => some (loc, name)
  | ⟨_, .decl .usingFile⟩ :: ⟨loc, .str name⟩ :: _ => some (loc, name)
  | _ => none

def head (internal overload : Bool) (name : String) (loc : Location) (ts : List Lexeme) :
    Function :=
  let afterArgs := ts.dropWhile (!endsKinds ·)
  let isArrow := afterArgs.head?.map (·.token) = some .arrow
  { name, entry := 0, loc, args := kinds (ts.takeWhile (!endsKinds ·)),
    rets := if isArrow then kinds (afterArgs.tail.takeWhile (!endsKinds ·)) else [],
    overload, internal }

def head? (internal : Bool) : List Lexeme → Option Function
  | ⟨_, .decl .fn⟩ :: ⟨loc, .ident name⟩ :: ts => some (head internal false name loc ts)
  | ⟨_, .decl .fnOverload⟩ :: ⟨loc, .ident name⟩ :: ts => some (head internal true name loc ts)
  | _ => none

def scan {α : Type} (pick : List Lexeme → Option α) : List Lexeme → List α
  | [] => []
  | t :: ts => (pick (t :: ts)).toList ++ scan pick ts

theorem isDeclarator_eq_false {t : Token} (h : ∀ d, t ≠ .decl d) : t.isDeclarator = false := by
  unfold Token.isDeclarator
  split
  · next d => exact absurd rfl (h d)
  · rfl

/-- Tokens among which none starts a declaration. -/
def Plain (ts : List Lexeme) : Prop := ∀ t ∈ ts, t.token.isDeclarator = false

theorem use?_eq_none {t : Lexeme} (h : t.token ≠ .decl .usingFile) (ts : List Lexeme) :
    use? (t :: ts) = none := by
  unfold use?
  split
  · simp_all
  · simp_all
  · rfl

theorem head?_eq_none {t : Lexeme} (hfn : t.token ≠ .decl .fn)
    (hoverload : t.token ≠ .decl .fnOverload) (internal : Bool) (ts : List Lexeme) :
    head? internal (t :: ts) = none := by
  unfold head?
  split
  · simp_all
  · simp_all
  · rfl

theorem scan_append {α : Type} {pick : List Lexeme → Option α}
    (hpick : ∀ t ts, t.token.isDeclarator = false → pick (t :: ts) = none) {ts : List Lexeme}
    (h : Plain ts) (rest : List Lexeme) : scan pick (ts ++ rest) = scan pick rest := by
  induction ts with
  | nil => rfl
  | cons t ts ih =>
    obtain ⟨ht, hts⟩ := List.forall_mem_cons.mp h
    rw [List.cons_append, scan, hpick t _ ht, ih hts]
    rfl

def Leaves (ts rest : List Lexeme) : Prop := ∃ taken, ts = taken ++ rest ∧ Plain taken

theorem Leaves.refl (ts : List Lexeme) : Leaves ts ts := ⟨[], rfl, by simp [Plain]⟩

theorem Leaves.cons {t : Lexeme} {ts rest : List Lexeme} (ht : t.token.isDeclarator = false)
    (h : Leaves ts rest) : Leaves (t :: ts) rest := by
  obtain ⟨taken, rfl, htaken⟩ := h
  exact ⟨t :: taken, rfl, List.forall_mem_cons.mpr ⟨ht, htaken⟩⟩

theorem Leaves.trans {ts us rest : List Lexeme} (h : Leaves ts us) (h' : Leaves us rest) :
    Leaves ts rest := by
  obtain ⟨taken, rfl, htaken⟩ := h
  obtain ⟨taken', rfl, htaken'⟩ := h'
  exact ⟨taken ++ taken', by simp, List.forall_mem_append.mpr ⟨htaken, htaken'⟩⟩

theorem leaves_dropWhile {p : Lexeme → Bool} (hp : ∀ t, p t = true → t.token.isDeclarator = false)
    (ts : List Lexeme) : Leaves ts (ts.dropWhile p) := by
  refine ⟨ts.takeWhile p, List.takeWhile_append_dropWhile.symm, ?_⟩
  intro t ht
  exact hp t (List.mem_takeWhile_imp ht)

theorem leaves_skip (ts : List Lexeme) : Leaves ts (skip ts) := by
  apply leaves_dropWhile
  intro t ht
  simpa using ht

theorem isDeclarator_of_identName? {t : Lexeme} (h : (Body.identName? t).isSome = true) :
    t.token.isDeclarator = false := by
  unfold Body.identName? at h
  split at h
  · next hname =>
    rw [hname]
    rfl
  · simp at h

theorem leaves_body (ctx : Enclosing) (b : Body) (ts : List Lexeme) :
    Leaves ts (Body.read ctx b ts).2 := by
  have hnames : ∀ ts, Leaves ts (ts.dropWhile fun t => (Body.identName? t).isSome) := by
    intro ts
    apply leaves_dropWhile
    intro t ht
    exact isDeclarator_of_identName? ht
  fun_induction Body.read ctx b ts with
  | case1 b => exact Leaves.refl []
  | case2 b t ts => exact Leaves.refl (t :: ts)
  | case3 b t ts hrparen s outer hblocks ih => exact ih.cons (by rw [hrparen]; rfl)
  | case4 b t ts hrparen hblocks => exact (Leaves.refl ts).cons (by rw [hrparen]; rfl)
  | case5 b t ts hlparen ih => exact ih.cons (by rw [hlparen]; rfl)
  | case6 b t ts hif ih => exact ih.cons (by rw [hif]; rfl)
  | case7 b t ts hloop ih => exact ih.cons (by rw [hloop]; rfl)
  | case8 b t ts helse ih => exact ih.cons (by rw [helse]; rfl)
  | case9 b t ts hin ih => exact ih.cons (by rw [hin]; rfl)
  | case10 b t ts hlet hle names l rest hrest hlt ih =>
    have htaken := hnames ts
    rw [hrest] at htaken
    exact (htaken.trans (ih.cons rfl)).cons (by rw [hlet]; rfl)
  | case11 b t ts hlet hle h found hlt ih =>
    exact ((hnames ts).trans ih).cons (by rw [hlet]; rfl)
  | case12 b t hcast ih => exact ih.cons (by rw [hcast]; rfl)
  | case13 b t hcast target rest ty htype ih =>
    exact (ih.cons (by rw [htype]; rfl)).cons (by rw [hcast]; rfl)
  | case14 b t hcast target rest name hparam ih =>
    exact (ih.cons (by rw [hparam]; rfl)).cons (by rw [hcast]; rfl)
  | case15 b t hcast target rest hrparen ih => exact ih.cons (by rw [hcast]; rfl)
  | case16 b t hcast target rest d hdecl ih => exact ih.cons (by rw [hcast]; rfl)
  | case17 b t hcast target rest h₁ h₂ h₃ h₄ ih =>
    exact (ih.cons (isDeclarator_eq_false h₄)).cons (by rw [hcast]; rfl)
  | case18 b t ts h₁ h₂ h₃ h₄ h₅ h₆ h₇ h₈ h₉ ih => exact ih.cons (isDeclarator_eq_false h₁)

open Body (current)

theorem leaves_tail {stop : Location} {ts : List Lexeme}
    (heof : (current stop ts).token ≠ .eof)
    (hdecl : (current stop ts).token.isDeclarator = false) : Leaves ts ts.tail := by
  cases ts with
  | nil => exact absurd rfl heof
  | cons t ts => exact (Leaves.refl ts).cons hdecl

theorem exists_of_expectName {d : Declarator} {stop : Location} {ts : List Lexeme} {name : String}
    {loc : Location} (h : expectName d stop ts = .ok (name, loc)) :
    ∃ us, ts = ⟨loc, .ident name⟩ :: us := by
  cases ts with
  | nil => simp [expectName, current] at h
  | cons t us =>
    rcases t with ⟨l, token⟩
    unfold expectName at h
    simp only [current] at h
    split at h
    · simp only [Except.ok.injEq, Prod.mk.injEq] at h
      exact ⟨us, by rw [h.1, h.2]⟩
    · simp at h

theorem leaves_operand (p : Program) (stop : Location) (ts : List Lexeme) :
    Leaves ts (operand p stop ts).2 := by
  have hrest : Leaves ts (if atEnd ts then ts else ts.tail) := by
    cases ts with
    | nil => exact Leaves.refl []
    | cons t ts =>
      split
      · exact Leaves.refl (t :: ts)
      · next hend => exact (Leaves.refl ts).cons (Bool.eq_false_iff.mpr hend)
  unfold operand
  simp only
  split
  · exact hrest
  · split
    · exact hrest
    · exact hrest
  · exact hrest

theorem leaves_of_apply {name : String} {a b n : Int64} {stop : Location} {ts : List Lexeme}
    (h : apply name a b (current stop ts) = .ok n) : Leaves ts ts.tail := by
  unfold apply at h
  simp only at h
  split at h
  · next htoken => exact leaves_tail (by rw [htoken]; simp) (by rw [htoken]; rfl)
  · next htoken => exact leaves_tail (by rw [htoken]; simp) (by rw [htoken]; rfl)
  · simp at h

theorem leaves_constValue {p : Program} {name : String} {stop : Location} {ts rest : List Lexeme}
    {n : Int64} (h : constValue p name stop ts = (.ok n, rest)) : Leaves ts rest := by
  unfold constValue at h
  split at h
  · simp at h
  · next a us hfirst =>
    have hus := leaves_operand p stop ts
    rw [hfirst] at hus
    split at h
    · rw [← (Prod.mk.inj h).2]
      exact hus
    · split at h
      · simp at h
      · next b vs hsecond =>
        have hvs := hus.trans (leaves_operand p stop us)
        rw [hsecond] at hvs
        split at h
        · simp at h
        · next m hvalue =>
          split at h
          · rw [← (Prod.mk.inj h).2]
            exact hvs.trans (leaves_of_apply hvalue)
          · simp at h

theorem leaves_of_size {p : Program} {name : String} {n : Int64} {stop : Location}
    {ts : List Lexeme} (h : size p name (current stop ts) = .ok n) : Leaves ts ts.tail := by
  unfold size at h
  split at h
  · next htoken => exact leaves_tail (by rw [htoken]; simp) (by rw [htoken]; rfl)
  · next htoken => exact leaves_tail (by rw [htoken]; simp) (by rw [htoken]; rfl)
  · simp at h

theorem leaves_const {p : Program} {stop : Location} {ts : List Lexeme}
    (h : Faultless (const p stop ts).reports) :
    Leaves ts (const p stop ts).rest ∧ (const p stop ts).reports = [] := by
  unfold const at h ⊢
  split at h
  · exact absurd h (not_faultless_failed _ _ _)
  · next name loc hname =>
    obtain ⟨us, rfl⟩ := exists_of_expectName hname
    simp only [List.tail_cons] at h ⊢
    split at h
    · exact absurd h (not_faultless_failed _ _ _)
    · next value rest hvalue =>
      split at h
      · exact absurd h (by simp [Faultless])
      · exact ⟨(leaves_constValue hvalue).cons rfl, rfl⟩

theorem leaves_var {p : Program} {stop : Location} {ts : List Lexeme}
    (h : Faultless (var p stop ts).reports) :
    Leaves ts (var p stop ts).rest ∧ (var p stop ts).reports = [] := by
  unfold var at h ⊢
  split at h
  · exact absurd h (not_faultless_failed _ _ _)
  · next name loc hname =>
    obtain ⟨us, rfl⟩ := exists_of_expectName hname
    simp only [List.tail_cons] at h ⊢
    split at h
    · exact absurd h (not_faultless_failed _ _ _)
    · next n hsize =>
      split at h
      · exact absurd h (by simp [Faultless])
      · next hpositive =>
        rw [if_neg hpositive]
        split at h
        · exact absurd h (by simp [Faultless])
        · exact ⟨(leaves_of_size hsize).cons rfl, rfl⟩

structure Announced (p : Program) (internal : Bool) (t : Lexeme) (ts : List Lexeme) (o : Outcome) :
    Prop where
  leaves : Leaves ts o.rest
  reports : o.reports = (use? (t :: ts)).toList.map fun use => .use use.1 use.2
  functions : o.program.functions.map Function.head =
    p.functions.map Function.head ++ (head? internal (t :: ts)).toList

theorem announced_usingFile {p : Program} {internal : Bool} {stop l : Location}
    {ts : List Lexeme} (h : Faultless (usingFile p stop ts).reports) :
    Announced p internal ⟨l, .decl .usingFile⟩ ts (usingFile p stop ts) := by
  unfold usingFile at h ⊢
  cases ts with
  | nil => exact absurd h (not_faultless_failed _ _ _)
  | cons t ts =>
    rcases t with ⟨loc, token⟩
    simp only [current, List.tail_cons] at h ⊢
    split at h
    · exact ⟨(Leaves.refl ts).cons rfl, rfl, by simp [head?]⟩
    · exact ⟨(Leaves.refl ts).cons rfl, rfl, by simp [head?]⟩
    · exact absurd h (not_faultless_failed _ _ _)

theorem leaves_withBody (p : Program) (f : Function) (faults : List SyntaxError) (stop : Location)
    (ts : List Lexeme) : Leaves ts (withBody p f faults stop ts).rest := by
  unfold withBody
  split
  · next l us => exact (leaves_body _ _ us).cons rfl
  · exact leaves_skip ts

theorem heads_withBody {p : Program} {f : Function} {faults : List SyntaxError} {stop : Location}
    {ts : List Lexeme} (h : Faultless (withBody p f faults stop ts).reports) :
    (withBody p f faults stop ts).reports = [] ∧
      (withBody p f faults stop ts).program.functions.map Function.head =
        p.functions.map Function.head ++ [f.head] := by
  unfold withBody at h ⊢
  split at h
  · next l us =>
    rw [faultless_map_fault] at h
    simp [h, Function.head]
  · rw [faultless_map_fault] at h
    simp at h

theorem plain_kinds (ts : List Lexeme) : Plain (ts.takeWhile (!endsKinds ·)) := by
  intro t ht
  have hkind := List.mem_takeWhile_imp ht
  cases htoken : t.token with
  | decl d => simp [endsKinds, htoken] at hkind
  | _ => rfl

theorem leaves_kinds (ts : List Lexeme) : Leaves ts (ts.dropWhile (!endsKinds ·)) :=
  ⟨_, List.takeWhile_append_dropWhile.symm, plain_kinds ts⟩

theorem not_arrow_of_ne {after : List Lexeme}
    (h : ∀ loc ts, after = ⟨loc, .arrow⟩ :: ts → False) :
    after.head?.map (·.token) ≠ some .arrow := by
  cases after with
  | nil => simp
  | cons t ts =>
    rcases t with ⟨loc, token⟩
    intro htoken
    obtain rfl : token = .arrow := by simpa using htoken
    exact h loc ts rfl

theorem leaves_function (p : Program) (internal overload : Bool) (stop : Location)
    (ts : List Lexeme) : Leaves ts (function p internal overload stop ts).rest := by
  unfold function
  split
  · exact leaves_skip ts
  · next name loc hname =>
    obtain ⟨us, rfl⟩ := exists_of_expectName hname
    simp only [List.tail_cons]
    refine ((leaves_kinds us).trans (Leaves.trans ?_ (leaves_withBody _ _ _ _ _))).cons rfl
    generalize us.dropWhile (!endsKinds ·) = after
    split
    · exact (leaves_kinds _).cons rfl
    · exact Leaves.refl _

theorem announced_function {p : Program} {internal overload : Bool} {stop l : Location}
    {ts : List Lexeme} (h : Faultless (function p internal overload stop ts).reports) :
    Announced p internal ⟨l, .decl (if overload then .fnOverload else .fn)⟩ ts
      (function p internal overload stop ts) := by
  refine ⟨leaves_function p internal overload stop ts, ?_, ?_⟩
  all_goals
    unfold function at h ⊢
    split at h
    · exact absurd h (not_faultless_failed _ _ _)
  · next name loc hname =>
    obtain ⟨us, rfl⟩ := exists_of_expectName hname
    rw [(heads_withBody h).1]
    cases overload <;> rfl
  · next name loc hname =>
    obtain ⟨us, rfl⟩ := exists_of_expectName hname
    have hhead : head? internal
        (⟨l, .decl (if overload then .fnOverload else .fn)⟩ :: ⟨loc, .ident name⟩ :: us) =
        some (head internal overload name loc us) := by
      cases overload <;> rfl
    rw [(heads_withBody h).2, hhead, Option.toList_some]
    simp only [head, Function.head, List.tail_cons]
    generalize us.dropWhile (!endsKinds ·) = after
    split
    · rfl
    · next hafter =>
      rw [if_neg (not_arrow_of_ne hafter)]
      rfl

theorem announced_read {p : Program} {internal : Bool} {stop : Location} {t : Lexeme}
    {ts : List Lexeme} (h : Faultless (read p internal stop t ts).reports) :
    Announced p internal t ts (read p internal stop t ts) := by
  rcases t with ⟨l, token⟩
  unfold read at h ⊢
  simp only at h ⊢
  split at h
  · exact announced_function h
  · exact announced_function h
  · obtain ⟨hleaves, hreports⟩ := leaves_const h
    exact ⟨hleaves, hreports, by simp [functions_const, head?]⟩
  · obtain ⟨hleaves, hreports⟩ := leaves_var h
    exact ⟨hleaves, hreports, by simp [functions_var, head?]⟩
  · exact announced_usingFile h
  · exact absurd h (not_faultless_failed _ _ _)

theorem scan_use?_of_leaves {ts rest : List Lexeme} (h : Leaves ts rest) :
    scan use? ts = scan use? rest := by
  obtain ⟨taken, rfl, htaken⟩ := h
  apply scan_append _ htaken
  intro t ts ht
  apply use?_eq_none
  intro heq
  simp [heq, Token.isDeclarator] at ht

theorem scan_head?_of_leaves {ts rest : List Lexeme} (internal : Bool) (h : Leaves ts rest) :
    scan (head? internal) ts = scan (head? internal) rest := by
  obtain ⟨taken, rfl, htaken⟩ := h
  apply scan_append _ htaken
  intro t ts ht
  apply head?_eq_none
  · intro heq
    simp [heq, Token.isDeclarator] at ht
  · intro heq
    simp [heq, Token.isDeclarator] at ht

theorem readAll_of_faultless {internal : Bool} {stop : Location} {p : Program} {ts : List Lexeme}
    (h : Faultless (readAll internal stop p ts).2) :
    (readAll internal stop p ts).2 = (scan use? ts).map (fun use => .use use.1 use.2) ∧
      (readAll internal stop p ts).1.functions.map Function.head =
        p.functions.map Function.head ++ scan (head? internal) ts := by
  fun_induction readAll internal stop p ts with
  | case1 p => simp [scan]
  | case2 p t ts one q reports hrest ih =>
    rw [faultless_append] at h
    simp only [hrest] at ih
    obtain ⟨hreports, hfunctions⟩ := ih h.2
    have hone : Announced p internal t ts one := announced_read h.1
    rw [scan, scan, scan_use?_of_leaves hone.leaves, scan_head?_of_leaves _ hone.leaves]
    constructor
    · rw [hone.reports, hreports, List.map_append]
    · rw [hfunctions, hone.functions, List.append_assoc]

end Declaration

namespace SourceUnit

open Declaration (Faultless scan use? head?)

def tokens (u : SourceUnit) : List Lexeme :=
  match TokenStream.ofText u.id u.text with
  | .error _ => []
  | .ok stream => stream.lexemes

/--
The sources that a source names, in order, and where. If the source is read without a fault, each of
them is a declaration of its own, since bodies hold none.
-/
def uses (u : SourceUnit) : List (Location × String) := scan use? u.tokens

def heads (u : SourceUnit) : List Function := scan (head? u.internal) u.tokens

theorem read_of_faultless {u : SourceUnit} {p : Program} (h : Faultless (u.read p).2) :
    (u.read p).2 = u.uses.map (fun use => .use use.1 use.2) ∧
      (u.read p).1.functions.map Function.head = p.functions.map Function.head ++ u.heads := by
  unfold read at h ⊢
  cases hstream : TokenStream.ofText u.id u.text with
  | error errors =>
    simp only [hstream] at h ⊢
    cases errors with
    | nil => simp [uses, heads, tokens, hstream, scan]
    | cons e es => exact absurd List.mem_cons_self (h _)
  | ok stream =>
    simp only [hstream] at h ⊢
    simp only [uses, heads, tokens, hstream]
    exact Declaration.readAll_of_faultless h

end SourceUnit
end StackLang
