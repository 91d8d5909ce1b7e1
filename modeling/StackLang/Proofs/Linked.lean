import Mathlib.Data.List.TakeWhile
import StackLang.Proofs.ControlFlow

/-!
This module contains what reading guarantees about the names and indices of a program: names take up
one line, and code refers to strings and memory regions that the program has.
-/

namespace StackLang

def Text.OneLine (s : String) : Prop := '\n' ∉ s.toList

instance (s : String) : Decidable (Text.OneLine s) := inferInstanceAs (Decidable (_ ∉ _))

namespace Text.OneLine

theorem append {a b : String} (ha : OneLine a) (hb : OneLine b) : OneLine (a ++ b) := by
  unfold OneLine
  rw [String.toList_append, List.mem_append]
  exact not_or.mpr ⟨ha, hb⟩

theorem ofList {cs : List Char} (h : ∀ c ∈ cs, Text.isBlank c = false) :
    OneLine (String.ofList cs) := by
  unfold OneLine
  rw [String.toList_ofList]
  intro hmem
  exact absurd (h '\n' hmem) (by decide)

theorem join {texts : List String} (h : ∀ s ∈ texts, OneLine s) : OneLine (String.join texts) := by
  unfold OneLine
  rw [String.toList_join, List.mem_flatMap]
  rintro ⟨s, hs, hmem⟩
  exact h s hs hmem

end Text.OneLine

def Token.name? : Token → Option String
  | ident name | param name => some name
  | _ => none

def Lexeme.OneLineNames (ts : List Lexeme) : Prop :=
  ∀ t ∈ ts, ∀ name ∈ t.token.name?, Text.OneLine name

theorem Lexeme.OneLineNames.sublist {ts us : List Lexeme} (h : OneLineNames ts)
    (hsub : us.Sublist ts) : OneLineNames us := fun t ht => h t (hsub.subset ht)

theorem Token.name?_of_ofWord? {word : String} {t : Token} (h : ofWord? word = some t) :
    t.name? = none := by
  have hall : ∀ t ∈ reserved, t.name? = none := by decide
  exact hall t (List.mem_of_find?_eq_some h)

namespace Lexeme

theorem isBlank_of_gap {inComment : Bool} {cs g rest : List Char} {c : Char}
    (h : gap inComment cs = (g, c :: rest)) : Text.isBlank c = false := by
  fun_induction gap inComment cs generalizing g with
  | case1 => simp at h
  | case2 c' cs g' rest' hgap ih =>
    simp only [Prod.mk.injEq] at h
    exact ih (by rw [hgap, h.2])
  | case3 cs g' rest' hgap ih =>
    simp only [Prod.mk.injEq] at h
    exact ih (by rw [hgap, h.2])
  | case4 c' cs hne hblank g' rest' hgap ih =>
    simp only [Prod.mk.injEq] at h
    exact ih (by rw [hgap, h.2])
  | case5 c' cs hne hblank =>
    simp only [Prod.mk.injEq, List.cons.injEq] at h
    rw [← h.2.1]
    simpa using hblank

theorem oneLine_of_word {word : List Char} (hword : ∀ c ∈ word, Text.isBlank c = false)
    {name : String} (h : name ∈ (wordToken word).name?) : Text.OneLine name := by
  unfold wordToken at h
  simp only at h
  split at h
  · next t ht =>
    rw [Token.name?_of_ofWord? ht] at h
    simp at h
  · split at h
    · simp [Token.name?] at h
    · simp only [Token.name?, Option.mem_def, Option.some.injEq] at h
      rw [← h]
      exact Text.OneLine.ofList hword

theorem oneLine_of_digitWord {word : List Char} (hword : ∀ c ∈ word, Text.isBlank c = false)
    {t : Token} (ht : digitWordToken word = .ok t) {name : String} (h : name ∈ t.name?) :
    Text.OneLine name := by
  unfold digitWordToken at ht
  split at ht
  · split at ht
    · simp only [Except.ok.injEq] at ht
      rw [← ht] at h
      simp [Token.name?] at h
    · simp at ht
  · simp only [Except.ok.injEq] at ht
    rw [← ht] at h
    cases hof : Token.ofWord? (String.ofList word) with
    | some t' =>
      rw [hof, Option.getD_some, Token.name?_of_ofWord? hof] at h
      simp at h
    | none =>
      simp only [hof, Option.getD_none, Token.name?, Option.mem_def, Option.some.injEq] at h
      rw [← h]
      exact Text.OneLine.ofList hword

theorem oneLine_of_cut {c : Char} {cs : List Char} {t : Token} (hc : Text.isBlank c = false)
    (ht : (cut c cs).outcome = .ok t) {name : String} (h : name ∈ t.name?) : Text.OneLine name := by
  have htake : ∀ {p : Char → Bool} (hp : ∀ c, p c = true → Text.isBlank c = false),
      ∀ c ∈ cs.takeWhile p, Text.isBlank c = false := by
    intro p hp c hmem
    exact hp c (List.mem_takeWhile_imp hmem)
  unfold cut at ht
  split at ht
  · rw [← Except.ok.inj ht] at h
    simp [Token.name?] at h
  split at ht
  · rw [← Except.ok.inj ht] at h
    simp [Token.name?] at h
  split at ht
  · simp only [cutString] at ht
    split at ht
    · rw [← Except.ok.inj ht] at h
      simp [Token.name?] at h
    · simp at ht
    · simp at ht
  split at ht
  · simp only [cutChar, charToken] at ht
    split at ht
    · split at ht
      · simp at ht
      · split at ht
        · rw [← Except.ok.inj ht] at h
          simp [Token.name?] at h
        · simp at ht
      · simp at ht
    · simp at ht
    · simp at ht
  split at ht
  · simp only [cutParam] at ht
    split at ht
    · simp at ht
    · rw [← Except.ok.inj ht] at h
      simp only [Token.name?, Option.mem_def, Option.some.injEq] at h
      rw [← h]
      apply Text.OneLine.ofList
      apply htake
      simp
  · have hword : ∀ d ∈ c :: cs.takeWhile isWordChar, Text.isBlank d = false := by
      intro d hd
      rcases List.mem_cons.mp hd with rfl | hd
      · exact hc
      · apply htake _ d hd
        intro d hd
        simp only [isWordChar, Bool.and_eq_true, Bool.not_eq_true'] at hd
        exact hd.1
    simp only [cutWord] at ht
    split at ht
    · exact oneLine_of_digitWord hword ht h
    · rw [← Except.ok.inj ht] at h
      exact oneLine_of_word hword h

end Lexeme

theorem Scan.oneLine_of_mem {loc start : Location} {cs : List Char} {t : Token}
    (ht : (start, .ok t) ∈ (Scan.run loc cs).found) {name : String} (h : name ∈ t.name?) :
    Text.OneLine name := by
  fun_induction Scan.run loc cs with
  | case1 => simp at ht
  | case2 loc cs g c rest hgap _ start' lexeme after ih =>
    simp only [List.mem_cons, Prod.mk.injEq] at ht
    rcases ht with ⟨-, heq⟩ | ht
    · exact Lexeme.oneLine_of_cut (Lexeme.isBlank_of_gap hgap) heq.symm h
    · exact ih ht

theorem TokenStream.oneLineNames {file text : String} {stream : TokenStream}
    (h : TokenStream.ofText file text = .ok stream) : Lexeme.OneLineNames stream.lexemes := by
  unfold ofText at h
  simp only at h
  split at h
  · rw [← Except.ok.inj h]
    intro t ht name hname
    simp only [Scan.lexemes, List.mem_filterMap] at ht
    obtain ⟨⟨start, outcome⟩, hfound, heq⟩ := ht
    cases outcome with
    | error e => simp at heq
    | ok token =>
      simp only [Option.some.injEq] at heq
      rw [← heq] at hname
      exact Scan.oneLine_of_mem hfound hname
  · simp at h

theorem TypeName.oneLine_kind (t : TypeName) : Text.OneLine t.kind.render := by
  cases t <;> decide

/--
The string or memory region that an operation refers to is among the first ones, and a kind that it
names takes up one line.
-/
def Op.Linked (strings memories : Nat) : Op → Prop
  | pushStr index => index < strings
  | pushPtr index => index < memories
  | cast kind => Text.OneLine kind.render
  | _ => True

theorem Op.Linked.mono {strings memories strings' memories' : Nat} {op : Op}
    (h : op.Linked strings memories) (hstrings : strings ≤ strings')
    (hmemories : memories ≤ memories') : op.Linked strings' memories' := by
  cases op with
  | pushStr index => exact Nat.lt_of_lt_of_le h hstrings
  | pushPtr index => exact Nat.lt_of_lt_of_le h hmemories
  | cast kind => exact h
  | _ => trivial

theorem Op.Linked.retarget {strings memories : Nat} {op : Op} (h : op.Linked strings memories)
    (target : Nat) : (op.retarget target).Linked strings memories := by
  cases op with
  | branch _ | otherwise _ => trivial
  | _ => exact h

theorem Op.Placed.linked {globals : Program} {bindings : List Binding} {op : Op}
    (h : op.Placed globals bindings) (strings : Nat) :
    op.Linked strings globals.memories.length := by
  cases op with
  | pushPtr index => exact h
  | cast kind =>
    obtain ⟨t, rfl⟩ := h
    exact t.oneLine_kind
  | pushStr index => exact h.elim
  | _ => trivial

namespace Body

structure Linked (globals : Program) (b : Body) : Prop where
  strings : globals.strings.length ≤ b.strings.length
  code : ∀ i ∈ b.code, i.op.Linked b.strings.length globals.memories.length

namespace Linked

variable {globals : Program} {b : Body}

theorem append (h : b.Linked globals) {more : List Instruction}
    (hmore : ∀ i ∈ more, i.op.Linked b.strings.length globals.memories.length) :
    Linked globals { b with code := b.code ++ more } :=
  ⟨h.strings, List.forall_mem_append.mpr ⟨h.code, hmore⟩⟩

theorem patch (h : b.Linked globals) (k target : Nat) : (b.patch k target).Linked globals := by
  refine ⟨h.strings, ?_⟩
  intro i hi
  obtain ⟨n, hn⟩ := List.getElem?_of_mem hi
  simp only [Body.patch, List.getElem?_modify] at hn
  obtain ⟨j, hj, rfl⟩ := Option.map_eq_some_iff.mp hn
  have hlinked := h.code j (List.mem_of_getElem? hj)
  split
  · exact hlinked.retarget target
  · exact hlinked

theorem strings_mono (h : b.Linked globals) {strings : List String}
    (hstrings : b.strings.length ≤ strings.length) : Linked globals { b with strings } := by
  refine ⟨Nat.le_trans h.strings hstrings, ?_⟩
  intro i hi
  exact (h.code i hi).mono hstrings (Nat.le_refl _)

theorem length_intern (strings : List String) (s : String) :
    (intern strings s).1 < (intern strings s).2.length ∧
      strings.length ≤ (intern strings s).2.length := by
  unfold intern
  split
  · next i hi =>
    exact ⟨(List.findIdx?_eq_some_iff_getElem.mp hi).1, Nat.le_refl _⟩
  · simp

theorem of_grows {b₀ : Body} {clauses : List LetClause} (h₀ : b₀.Linked globals)
    (h : Grows globals b₀ clauses b) : b.Linked globals := by
  induction h with
  | refl => exact h₀
  | fault _ _ _ ih | blocks _ _ ih => exact ⟨ih.strings, ih.code⟩
  | emit _ _ _ hop ih =>
    apply ih.append
    simpa using hop.linked _
  | patch _ i target ih => exact ih.patch i target
  | string _ _ s ih =>
    obtain ⟨hindex, hlength⟩ := length_intern _ s
    apply (ih.strings_mono hlength).append
    simpa [Op.Linked] using hindex
  | bind _ loc hnames ih =>
    rw [bind_of_ne_nil _ loc hnames]
    refine ⟨ih.strings, List.forall_mem_append.mpr ⟨ih.code, ?_⟩⟩
    simp [Op.Linked]

theorem read (ctx : Enclosing) (h : b.Linked ctx.globals) (ts : List Lexeme) :
    (Body.read ctx b ts).1.Linked ctx.globals := by
  obtain ⟨_, b', ending, hgrows, hread, hending⟩ := Grows.refl.read (b := b) ts
  rw [hread]
  apply (h.of_grows hgrows).append
  intro i hi
  rw [hending i hi]
  trivial

end Linked

theorem sublist_read (ctx : Enclosing) (b : Body) (ts : List Lexeme) :
    (Body.read ctx b ts).2.Sublist ts := by
  fun_induction Body.read ctx b ts with
  | case1 | case2 => exact List.Sublist.refl _
  | case4 b t ts => exact List.sublist_cons_self t ts
  | case10 b t ts _ _ _ l rest hrest _ ih =>
    have hdrop := List.dropWhile_sublist (fun t => (identName? t).isSome) (l := ts)
    rw [hrest] at hdrop
    exact ((ih.cons _).trans hdrop).cons t
  | case11 b t ts _ _ _ _ _ ih => exact (ih.trans (List.dropWhile_sublist _)).cons t
  | case13 | case14 | case17 => next ih => exact (ih.cons _).cons _
  | _ => next ih => exact ih.cons _

end Body

structure Program.Linked (p : Program) : Prop where
  signatures : ∀ f ∈ p.functions, Text.OneLine f.signature
  memories : ∀ m ∈ p.memories, Text.OneLine m.name
  code : ∀ f ∈ p.functions, ∀ i ∈ f.code, i.op.Linked p.strings.length p.memories.length

theorem Program.Linked.empty : Linked {} := by
  constructor <;> simp

theorem Program.Linked.append {p : Program} (h : p.Linked) {f : Function}
    (hsignature : Text.OneLine f.signature) {strings : List String}
    (hstrings : p.strings.length ≤ strings.length)
    (hcode : ∀ i ∈ f.code, i.op.Linked strings.length p.memories.length) :
    Linked { p with functions := p.functions ++ [f], strings } := by
  refine ⟨?_, h.memories, ?_⟩
  · intro g hg
    rcases List.mem_append.mp hg with hg | hg
    · exact h.signatures g hg
    · rw [List.mem_singleton.mp hg]
      exact hsignature
  · intro g hg i hi
    rcases List.mem_append.mp hg with hg | hg
    · exact (h.code g hg i hi).mono hstrings (Nat.le_refl _)
    · rw [List.mem_singleton.mp hg] at hi
      exact hcode i hi

theorem Function.oneLine_signature {f : Function} (hname : Text.OneLine f.name)
    (hkinds : ∀ k ∈ f.args ++ f.rets, Text.OneLine k.render) : Text.OneLine f.signature := by
  have hjoin : ∀ ks : List Kind, (∀ k ∈ ks, Text.OneLine k.render) →
      Text.OneLine (String.join (ks.map fun k => " " ++ k.render)) := by
    intro ks hks
    apply Text.OneLine.join
    intro s hs
    obtain ⟨k, hk, rfl⟩ := List.mem_map.mp hs
    exact Text.OneLine.append (by decide) (hks k hk)
  unfold signature
  apply Text.OneLine.append
  · apply Text.OneLine.append hname
    exact hjoin f.args fun k hk => hkinds k (List.mem_append_left _ hk)
  · split
    · decide
    · apply Text.OneLine.append (by decide)
      exact hjoin f.rets fun k hk => hkinds k (List.mem_append_right _ hk)

namespace Declaration

open Lexeme (OneLineNames)

theorem oneLine_of_mem_kinds {ts : List Lexeme} (hts : OneLineNames ts) {k : Kind}
    (h : k ∈ kinds ts) : Text.OneLine k.render := by
  obtain ⟨t, ht, hk⟩ := List.mem_filterMap.mp h
  unfold Token.kind? at hk
  split at hk
  · next ty _ =>
    rw [← Option.some.inj hk]
    cases ty <;> decide
  · next name hname =>
    rw [← Option.some.inj hk]
    apply Text.OneLine.append (by decide)
    apply hts t ht
    rw [hname]
    rfl
  · simp at hk

theorem oneLine_of_expectName {d : Declarator} {stop loc : Location} {ts : List Lexeme}
    (hts : OneLineNames ts) {name : String} (h : expectName d stop ts = .ok (name, loc)) :
    Text.OneLine name := by
  unfold expectName at h
  simp only at h
  split at h
  · next n hn =>
    simp only [Except.ok.injEq, Prod.mk.injEq] at h
    rw [← h.1]
    cases ts with
    | nil => simp [Body.current] at hn
    | cons t ts =>
      apply hts t List.mem_cons_self
      simp only [Body.current] at hn
      rw [hn]
      rfl
  · simp at h

section

variable {p : Program} (stop : Location) (ts : List Lexeme)

theorem sublist_skip : (skip ts).Sublist ts := List.dropWhile_sublist _

theorem sublist_operand : (operand p stop ts).2.Sublist ts := by
  have hrest : (if atEnd ts then ts else ts.tail).Sublist ts := by
    split
    · exact List.Sublist.refl _
    · exact List.tail_sublist ts
  unfold operand
  simp only
  split
  · exact hrest
  · split <;> exact hrest
  · exact hrest

theorem sublist_constValue (name : String) : (constValue p name stop ts).2.Sublist ts := by
  have hfirst := sublist_operand (p := p) stop ts
  unfold constValue
  split
  · next h =>
    rw [h] at hfirst
    exact hfirst
  · next us h =>
    rw [h] at hfirst
    have hsecond := sublist_operand (p := p) stop us
    split
    · exact hfirst
    · split
      · next h =>
        rw [h] at hsecond
        exact hsecond.trans hfirst
      · next h =>
        rw [h] at hsecond
        have htail := ((List.tail_sublist _).trans hsecond).trans hfirst
        split
        · exact htail
        · split <;> exact htail

end

structure Keeps (o : Outcome) (ts : List Lexeme) : Prop where
  program : o.program.Linked
  rest : o.rest.Sublist ts

theorem Keeps.sublist {o : Outcome} {us ts : List Lexeme} (h : Keeps o us) (hsub : us.Sublist ts) :
    Keeps o ts := ⟨h.program, h.rest.trans hsub⟩

theorem keeps_failed {p : Program} (hp : p.Linked) (e : SyntaxError) {us ts : List Lexeme}
    (hsub : us.Sublist ts) : Keeps (failed p e us) ts :=
  ⟨hp, (sublist_skip us).trans hsub⟩

theorem keeps_const {p : Program} (hp : p.Linked) (stop : Location) (ts : List Lexeme) :
    Keeps (const p stop ts) ts := by
  unfold const
  split
  · exact keeps_failed hp _ (List.Sublist.refl _)
  · next name loc _ =>
    have hvalue := (sublist_constValue (p := p) stop ts.tail name).trans (List.tail_sublist ts)
    split
    · next h =>
      rw [h] at hvalue
      exact keeps_failed hp _ hvalue
    · next h =>
      rw [h] at hvalue
      split
      · exact ⟨hp, hvalue⟩
      · exact ⟨⟨hp.signatures, hp.memories, hp.code⟩, hvalue⟩

theorem keeps_var {p : Program} (hp : p.Linked) (stop : Location) {ts : List Lexeme}
    (hts : OneLineNames ts) : Keeps (var p stop ts) ts := by
  have htails : ts.tail.tail.Sublist ts := (List.tail_sublist _).trans (List.tail_sublist ts)
  unfold var
  split
  · exact keeps_failed hp _ (List.Sublist.refl _)
  · next name loc hname =>
    simp only
    split
    · exact keeps_failed hp _ htails
    · split
      · exact ⟨hp, htails⟩
      · split
        · exact ⟨hp, htails⟩
        · next n _ _ _ =>
          refine ⟨⟨hp.signatures, ?_, ?_⟩, htails⟩
          · intro m hm
            rcases List.mem_append.mp hm with hm | hm
            · exact hp.memories m hm
            · rw [List.mem_singleton.mp hm]
              exact oneLine_of_expectName hts hname
          · intro f hf i hi
            apply (hp.code f hf i hi).mono (Nat.le_refl _)
            simp

theorem keeps_usingFile {p : Program} (hp : p.Linked) (stop : Location) (ts : List Lexeme) :
    Keeps (usingFile p stop ts) ts := by
  unfold usingFile
  simp only
  split
  · exact ⟨hp, List.tail_sublist ts⟩
  · exact ⟨hp, List.tail_sublist ts⟩
  · exact keeps_failed hp _ (List.tail_sublist ts)

theorem keeps_withBody {p : Program} (hp : p.Linked) {f : Function}
    (hf : Text.OneLine f.signature) (hcode : f.code = []) (faults : List SyntaxError)
    (stop : Location) (ts : List Lexeme) : Keeps (withBody p f faults stop ts) ts := by
  unfold withBody
  split
  · next us =>
    have hbody : Body.Linked p { strings := p.strings } := ⟨Nat.le_refl _, by simp⟩
    have hread := hbody.read ⟨f.name, p, stop⟩ us
    refine ⟨?_, (Body.sublist_read _ _ us).cons _⟩
    apply hp.append
    · exact hf
    · exact hread.strings
    · exact hread.code
  · refine ⟨hp.append hf (Nat.le_refl _) ?_, sublist_skip _⟩
    simp [hcode]

theorem keeps_function {p : Program} (hp : p.Linked) (internal overload : Bool) (stop : Location)
    {ts : List Lexeme} (hts : OneLineNames ts) :
    Keeps (function p internal overload stop ts) ts := by
  have hargs : (ts.tail.takeWhile (!endsKinds ·)).Sublist ts :=
    (List.takeWhile_sublist _).trans (List.tail_sublist ts)
  have hafter : (ts.tail.dropWhile (!endsKinds ·)).Sublist ts :=
    (List.dropWhile_sublist _).trans (List.tail_sublist ts)
  have hbody : ∀ name loc rets rest, Text.OneLine name → OneLineNames rets → rest.Sublist ts →
      ∀ faults, Keeps (withBody p
        { name, entry := p.functions.length, loc, args := kinds (ts.tail.takeWhile (!endsKinds ·)),
          rets := kinds rets, overload, internal } faults stop rest) ts := by
    intro name loc rets rest hname hrets hrest faults
    apply (keeps_withBody hp _ rfl faults stop rest).sublist hrest
    apply Function.oneLine_signature hname
    intro k hk
    rcases List.mem_append.mp hk with hk | hk
    · exact oneLine_of_mem_kinds (hts.sublist hargs) hk
    · exact oneLine_of_mem_kinds hrets hk
  unfold function
  split
  · exact keeps_failed hp _ (List.Sublist.refl _)
  · next name loc hexpect =>
    have hname := oneLine_of_expectName hts hexpect
    simp only
    split
    · next l us hus =>
      rw [hus] at hafter
      have hrest := (List.sublist_cons_self _ us).trans hafter
      apply hbody name loc _ _ hname
      · exact hts.sublist ((List.takeWhile_sublist _).trans hrest)
      · exact (List.dropWhile_sublist _).trans hrest
    · apply hbody name loc [] _ hname
      · simp [OneLineNames]
      · exact hafter

theorem keeps_read {p : Program} (hp : p.Linked) (internal : Bool) (stop : Location) (t : Lexeme)
    {ts : List Lexeme} (hts : OneLineNames ts) : Keeps (read p internal stop t ts) ts := by
  unfold read
  split
  · exact keeps_function hp internal false stop hts
  · exact keeps_function hp internal true stop hts
  · exact keeps_const hp stop ts
  · exact keeps_var hp stop hts
  · exact keeps_usingFile hp stop ts
  · exact keeps_failed hp _ (List.Sublist.refl _)

theorem linked_readAll {p : Program} (hp : p.Linked) (internal : Bool) (stop : Location)
    {ts : List Lexeme} (hts : OneLineNames ts) : (readAll internal stop p ts).1.Linked := by
  fun_induction readAll internal stop p ts with
  | case1 p => exact hp
  | case2 p t ts one q reports hrest ih =>
    have hone := keeps_read hp internal stop t (hts.sublist (List.sublist_cons_self t ts))
    rw [hrest] at ih
    exact ih hone.program (hts.sublist (hone.rest.cons t))

end Declaration

theorem SourceUnit.linked_read {u : SourceUnit} {p : Program} (hp : p.Linked) :
    (u.read p).1.Linked := by
  unfold SourceUnit.read
  split
  · exact hp
  · next stream hstream =>
    exact Declaration.linked_readAll hp u.internal stream.stop (TokenStream.oneLineNames hstream)

theorem Front.linked_run {loader : Loader} {f : Front} (h : f.program.Linked) :
    (run loader f).program.Linked := by
  fun_induction Front.run loader f with
  | case1 f hqueue => exact h
  | case2 f u us hqueue hlt ih =>
    apply ih
    rw [Front.step]
    simp only
    rw [program_foldl_settle]
    exact SourceUnit.linked_read h

theorem linked_of_parse {loader : Loader} {entry : String} {options : Options} {p : Program}
    (h : parse loader entry options = .ok p) : p.Linked := by
  unfold parse Program.read at h
  split at h
  · simp [Except.mapError] at h
  · next start _ =>
    have hinitial : (Front.initial options.library start).program.Linked := by
      rw [Front.program_initial]
      exact Program.Linked.empty
    have hrun : ((Front.initial options.library start).run loader).program.Linked :=
      Front.linked_run hinitial
    unfold Front.finish at h
    simp only at h
    split at h
    · simp only [Except.mapError, Except.ok.injEq] at h
      rw [← h]
      exact hrun
    · simp [Except.mapError] at h

theorem Program.Validated.linked {p q : Program} (h : p.Validated q) (hp : p.Linked) :
    q.Linked := by
  refine ⟨?_, ?_, ?_⟩
  · intro g hg
    obtain ⟨n, hn⟩ := List.getElem?_of_mem hg
    obtain ⟨f, hf, hchecked⟩ := h.exists_checked hn
    have hsignature : g.signature = f.signature := by
      simp only [Function.signature, hchecked.name, hchecked.args, hchecked.rets]
    rw [hsignature]
    exact hp.signatures f (List.mem_of_getElem? hf)
  · rw [h.memories]
    exact hp.memories
  · intro g hg j hj
    obtain ⟨n, hn⟩ := List.getElem?_of_mem hg
    obtain ⟨f, hf, hchecked⟩ := h.exists_checked hn
    obtain ⟨ip, hip⟩ := List.getElem?_of_mem hj
    obtain ⟨i, _, _, hi, -, -, hresolve, -⟩ := hchecked.instruction hip
    rw [h.memories, h.strings]
    rcases Walk.resolve_eq_ok hresolve with ⟨heq, -⟩ | ⟨_, _, _, -, heq, -⟩
    · rw [heq]
      exact hp.code f (List.mem_of_getElem? hf) i (List.mem_of_getElem? hi)
    · rw [heq]
      trivial

end StackLang
