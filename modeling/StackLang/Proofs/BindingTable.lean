import StackLang.Proofs.Discovery

/-!
This module contains what the binding slots of a function say about its text. The names of its `let`
clauses, in the order of the text, are the names of its slots, and its code fills the slots in that
order, a clause at a time, before it reads them.
-/

namespace StackLang

def leadingNames (ts : List Lexeme) : List String :=
  (ts.takeWhile fun t => (Body.identName? t).isSome).filterMap Body.identName?

def letClauses : List Lexeme → List LetClause
  | [] => []
  | t :: ts =>
    if t.token = .kwLet then ⟨t.loc, leadingNames ts⟩ :: letClauses ts else letClauses ts

def Instruction.bind? (i : Instruction) : Option (Location × Nat) :=
  match i.op with
  | .bind count => some (i.loc, count)
  | _ => none

def bindSites (code : List Instruction) : List (Location × Nat) := code.filterMap (·.bind?)

def filled : List Instruction → Nat
  | [] => 0
  | i :: rest =>
    match i.op with
    | .bind count => count + filled rest
    | _ => filled rest

/-- The bindings and the code of a function as the clauses of its text make them. -/
structure Function.BindingTable (f : Function) (clauses : List LetClause) : Prop where
  fresh : FreshSlots f.bindings
  positive : ∀ {ip count : Nat} {loc : Location}, f.code[ip]? = some ⟨loc, .bind count⟩ → 1 ≤ count
  total : filled f.code = f.bindings.length
  sites : bindSites f.code = clauses.map fun c => (c.loc, c.names.length)
  /-- Behind the slots filled before a clause stand the names of the clause. -/
  names : ∀ {ip count : Nat} {loc : Location}, f.code[ip]? = some ⟨loc, .bind count⟩ →
    ∃ c, clauses[(bindSites (f.code.take ip)).length]? = some c ∧ c.loc = loc ∧
      c.names.length = count ∧ ∀ j name, c.names[j]? = some name →
        (f.bindings[filled (f.code.take ip) + j]?).map (·.name) = some name
  unbind_iff : (∃ i ∈ f.code, ∃ count, i.op = .unbind count) ↔ f.bindings ≠ []
  /-- Slots are given up all at once, behind the last block. -/
  unbind : ∀ {ip count : Nat} {loc : Location}, f.code[ip]? = some ⟨loc, .unbind count⟩ →
    count = f.bindings.length ∧ ip + 1 = f.code.length ∧ Nested 0 (f.code.take ip)
  reads : ∀ {ip slot : Nat} {loc : Location}, f.code[ip]? = some ⟨loc, .pushBind slot⟩ →
    slot < filled (f.code.take ip)

theorem letClauses_cons {t : Lexeme} (h : t.token ≠ .kwLet) (ts : List Lexeme) :
    letClauses (t :: ts) = letClauses ts := by
  rw [letClauses, if_neg h]

theorem letClauses_append {before : List Lexeme} (h : ∀ t ∈ before, t.token ≠ .kwLet)
    (ts : List Lexeme) : letClauses (before ++ ts) = letClauses ts := by
  induction before with
  | nil => rfl
  | cons t before ih =>
    obtain ⟨ht, hbefore⟩ := List.forall_mem_cons.mp h
    rw [List.cons_append, letClauses_cons ht, ih hbefore]

theorem leadingNames_append {names : List Lexeme}
    (h : ∀ t ∈ names, (Body.identName? t).isSome = true) {t : Lexeme}
    (ht : Body.identName? t = none) (ts : List Lexeme) :
    leadingNames (names ++ t :: ts) = names.filterMap Body.identName? := by
  unfold leadingNames
  rw [List.takeWhile_append_of_pos h, List.takeWhile_cons_of_neg (by simp [ht]), List.append_nil]

theorem letClauses_let {t : Lexeme} (ht : t.token = .kwLet) {names : List Lexeme}
    (h : ∀ t ∈ names, (Body.identName? t).isSome = true) (loc : Location) (ts : List Lexeme) :
    letClauses (t :: (names ++ ⟨loc, .kwIn⟩ :: ts)) =
      ⟨t.loc, names.filterMap Body.identName?⟩ :: letClauses ts := by
  rw [letClauses, if_pos ht, leadingNames_append h rfl, letClauses_append,
    letClauses_cons (by simp)]
  intro t ht heq
  have := h t ht
  simp [Body.identName?, heq] at this

theorem bindSites_append (a b : List Instruction) :
    bindSites (a ++ b) = bindSites a ++ bindSites b :=
  List.filterMap_append

theorem bindSites_modify_retarget (code : List Instruction) (i target : Nat) :
    bindSites (code.modify i fun c => ⟨c.loc, c.op.retarget target⟩) = bindSites code := by
  induction code generalizing i with
  | nil => simp
  | cons c code ih =>
    cases i with
    | zero =>
      rcases c with ⟨loc, op⟩
      cases op <;> rfl
    | succ i =>
      rw [List.modify_succ_cons]
      unfold bindSites at ih ⊢
      rw [List.filterMap_cons, List.filterMap_cons, ih]

theorem filled_append (a b : List Instruction) : filled (a ++ b) = filled a + filled b := by
  induction a with
  | nil => simp [filled]
  | cons i a ih =>
    rw [List.cons_append, filled, filled]
    split
    · rw [ih]
      omega
    · exact ih

theorem length_flatMap_names {code : List Instruction} {clauses : List LetClause}
    (h : bindSites code = clauses.map fun c => (c.loc, c.names.length)) :
    (clauses.flatMap (·.names)).length = filled code := by
  induction code generalizing clauses with
  | nil =>
    have hnil : clauses = [] := List.map_eq_nil_iff.mp h.symm
    rw [hnil]
    rfl
  | cons i code ih =>
    rcases i with ⟨loc, op⟩
    unfold bindSites at h ih
    cases op with
    | bind count =>
      obtain ⟨c, rest, rfl, hc, hrest⟩ := List.map_eq_cons_iff.mp h.symm
      rw [List.flatMap_cons, List.length_append, ih hrest.symm, (Prod.mk.inj hc).2]
      rfl
    | _ => exact ih h

theorem slotsAfter_eq_some {code : List Instruction} {bound total : Nat}
    (h : slotsAfter bound code = some total) :
    total = bound + filled code ∧
      ∀ {ip slot : Nat} {loc : Location}, code[ip]? = some ⟨loc, .pushBind slot⟩ →
        slot < bound + filled (code.take ip) := by
  induction code generalizing bound with
  | nil =>
    refine ⟨(Option.some.inj h).symm, ?_⟩
    intro ip slot loc hip
    simp at hip
  | cons i code ih =>
    rcases i with ⟨l, op⟩
    cases op with
    | bind count =>
      obtain ⟨htotal, hreads⟩ := ih h
      refine ⟨by rw [htotal, filled, Nat.add_assoc], ?_⟩
      intro ip slot loc hip
      cases ip with
      | zero => simp at hip
      | succ ip =>
        have := hreads hip
        simp only [List.take_succ_cons, filled]
        omega
    | pushBind first =>
      simp only [slotsAfter] at h
      split at h
      · next hfirst =>
        obtain ⟨htotal, hreads⟩ := ih h
        refine ⟨htotal, ?_⟩
        intro ip slot loc hip
        cases ip with
        | zero =>
          obtain rfl : first = slot := by simpa using congrArg (·.map (·.op)) hip
          exact hfirst
        | succ ip => exact hreads hip
      · simp at h
    | unbind count => simp [slotsAfter] at h
    | _ =>
      obtain ⟨htotal, hreads⟩ := ih h
      refine ⟨htotal, ?_⟩
      intro ip slot loc hip
      cases ip with
      | zero => simp at hip
      | succ ip => exact hreads hip

/-- The slots and the code that fills them come from clauses, all in one order. -/
structure Bound (code : List Instruction) (bindings : List Binding) (clauses : List LetClause) :
    Prop where
  sites : bindSites code = clauses.map fun c => (c.loc, c.names.length)
  names : bindings.map (·.name) = clauses.flatMap (·.names)

namespace Bound

theorem nil : Bound [] [] [] := ⟨rfl, rfl⟩

variable {code : List Instruction} {bindings : List Binding} {clauses : List LetClause}

theorem append (h : Bound code bindings clauses) {more : List Instruction}
    (hmore : bindSites more = []) : Bound (code ++ more) bindings clauses := by
  refine ⟨?_, h.names⟩
  rw [bindSites_append, hmore, List.append_nil, h.sites]

theorem retarget (h : Bound code bindings clauses) (i target : Nat) :
    Bound (code.modify i fun c => ⟨c.loc, c.op.retarget target⟩) bindings clauses := by
  refine ⟨?_, h.names⟩
  rw [bindSites_modify_retarget, h.sites]

theorem exists_clause (h : Bound code bindings clauses) {ip count : Nat} {loc : Location}
    (hip : code[ip]? = some ⟨loc, .bind count⟩) :
    ∃ c, clauses[(bindSites (code.take ip)).length]? = some c ∧ c.loc = loc ∧
      c.names.length = count ∧ ∀ j name, c.names[j]? = some name →
        (bindings[filled (code.take ip) + j]?).map (·.name) = some name := by
  obtain ⟨hlt, hget⟩ := List.getElem?_eq_some_iff.mp hip
  have hcode : code = code.take ip ++ ⟨loc, .bind count⟩ :: code.drop (ip + 1) := by
    rw [← hget, ← List.drop_eq_getElem_cons hlt, List.take_append_drop]
  have hsplit : clauses.map (fun c => (c.loc, c.names.length)) =
      bindSites (code.take ip) ++ (loc, count) :: bindSites (code.drop (ip + 1)) := by
    rw [← h.sites]
    conv => lhs; rw [hcode, bindSites_append]
    rfl
  obtain ⟨before, rest, rfl, hbefore, hrest⟩ := List.map_eq_append_iff.mp hsplit
  obtain ⟨c, after, rfl, hc, -⟩ := List.map_eq_cons_iff.mp hrest
  obtain ⟨hloc, hcount⟩ := Prod.mk.inj hc
  refine ⟨c, by rw [← hbefore]; simp, hloc, hcount, ?_⟩
  intro j name hj
  have hj' := (List.getElem?_eq_some_iff.mp hj).1
  rw [← List.getElem?_map, h.names, List.flatMap_append, List.flatMap_cons,
    ← length_flatMap_names hbefore.symm, List.getElem?_append_right (by omega),
    Nat.add_sub_cancel_left, List.getElem?_append_left hj', hj]

end Bound

theorem ReadCode.exists_body {code : List Instruction} {bindings : List Binding}
    (h : ReadCode code bindings) :
    ∃ body ending, code = body ++ ending ∧ Nested 0 body ∧ Tidy bindings.length body ∧
      filled ending = 0 ∧ (bindings ≠ [] ↔ ending ≠ []) ∧
      ∀ {k : Nat} {i : Instruction}, ending[k]? = some i →
        k = 0 ∧ ending.length = 1 ∧ i.op = .unbind bindings.length := by
  obtain ⟨body, ending, rfl, hnested, htidy, ⟨rfl, hnil⟩ | ⟨loc, rfl, hne⟩⟩ := h.split
  · exact ⟨body, [], rfl, hnested, htidy, rfl, by simp [hnil], by simp⟩
  · refine ⟨body, _, rfl, hnested, htidy, rfl, by simp [hne], ?_⟩
    intro k i hk
    obtain ⟨rfl, rfl⟩ : k = 0 ∧ ⟨loc, .unbind bindings.length⟩ = i := by
      simpa [List.getElem?_singleton] using hk
    exact ⟨rfl, rfl, rfl⟩

theorem Function.bindingTable {f : Function} {clauses : List LetClause}
    (hread : ReadCode f.code f.bindings) (hbound : Bound f.code f.bindings clauses) :
    f.BindingTable clauses := by
  obtain ⟨body, ending, hcode, hnested, htidy, hzero, hempty, hlast⟩ := hread.exists_body
  obtain ⟨htotal, hreads⟩ := slotsAfter_eq_some htidy.slots
  -- an instruction stands in the body, where no slot is given up, or is the last one
  have hat {ip : Nat} {i : Instruction} (hip : f.code[ip]? = some i) :
      body[ip]? = some i ∧ f.code.take ip = body.take ip ∧ i.op.Emitted ∨
        i.op = .unbind f.bindings.length ∧ ip + 1 = f.code.length ∧ f.code.take ip = body := by
    rw [hcode] at hip ⊢
    rcases Nat.lt_or_ge ip body.length with hlt | hge
    · rw [List.getElem?_append_left hlt] at hip
      exact .inl ⟨hip, List.take_append_of_le_length (Nat.le_of_lt hlt),
        htidy.emitted i (List.mem_of_getElem? hip)⟩
    · rw [List.getElem?_append_right hge] at hip
      obtain ⟨hk, hlength, hop⟩ := hlast hip
      obtain rfl : ip = body.length := by omega
      exact .inr ⟨hop, by rw [List.length_append, hlength], List.take_left⟩
  constructor
  case fresh => exact hread.fresh
  case positive =>
    intro ip count loc hip
    obtain ⟨-, -, hemitted⟩ | ⟨hop, -⟩ := hat hip
    · exact hemitted
    · simp at hop
  case total => rw [hcode, filled_append, hzero, htotal, Nat.zero_add, Nat.add_zero]
  case sites => exact hbound.sites
  case names => exact hbound.exists_clause
  case unbind_iff =>
    rw [hempty]
    constructor
    · rintro ⟨i, hi, count, hop⟩ rfl
      rw [hcode, List.append_nil] at hi
      exact absurd (htidy.emitted i hi) (by simp [hop, Op.Emitted])
    · intro hne
      obtain ⟨i, hi⟩ := List.exists_mem_of_ne_nil ending hne
      obtain ⟨k, hk⟩ := List.getElem?_of_mem hi
      exact ⟨i, hcode ▸ List.mem_append_right body hi, _, (hlast hk).2.2⟩
  case unbind =>
    intro ip count loc hip
    obtain ⟨-, -, hemitted⟩ | ⟨hop, hlength, htake⟩ := hat hip
    · exact absurd hemitted id
    · exact ⟨by simpa using hop, hlength, htake ▸ hnested⟩
  case reads =>
    intro ip slot loc hip
    obtain ⟨hbody, htake, -⟩ | ⟨hop, -⟩ := hat hip
    · rw [htake]
      simpa using hreads hbody
    · simp at hop

namespace Body

open Declaration (Plain)

variable {globals : Program} {b₀ b : Body} {clauses : List LetClause}

theorem Grows.bound {strings : List String} (h : Grows globals { strings } clauses b) :
    Bound b.code b.bindings clauses := by
  induction h with
  | refl => exact Bound.nil
  | fault _ _ _ ih | blocks _ _ ih => exact ih
  | emit _ loc op hop ih =>
    apply ih.append
    cases op with
    | bind count => exact hop.elim
    | _ => rfl
  | patch _ i target ih => exact ih.retarget i target
  | string _ _ _ ih => exact ih.append rfl
  | bind _ loc hnames ih =>
    rw [bind_of_ne_nil _ loc hnames]
    constructor
    · simp only [Body.emit, bindSites_append, List.map_append]
      rw [ih.sites]
      rfl
    · simp only [List.map_append, List.flatMap_append, List.map_map]
      rw [ih.names]
      simp [Function.comp_def, List.zipIdx_map_fst]

/-- Tokens are taken from the front up to the rest that is left, and their clauses are bound. -/
def Takes (globals : Program) (b₀ : Body) (clauses : List LetClause) (ts : List Lexeme)
    (r : Body × List Lexeme) : Prop :=
  ∃ taken b loc, ts = taken ++ r.2 ∧ Plain taken ∧
    Grows globals b₀ (clauses ++ letClauses taken) b ∧ r.1 = b.finish loc

theorem Takes.cons {ts : List Lexeme} {r : Body × List Lexeme} (h : Takes globals b₀ clauses ts r)
    {t : Lexeme} (hlet : t.token ≠ .kwLet) (hdecl : t.token.isDeclarator = false) :
    Takes globals b₀ clauses (t :: ts) r := by
  obtain ⟨taken, b, loc, rfl, hplain, hgrows, hfinish⟩ := h
  refine ⟨t :: taken, b, loc, rfl, List.forall_mem_cons.mpr ⟨hdecl, hplain⟩, ?_, hfinish⟩
  rw [letClauses_cons hlet]
  exact hgrows

theorem Takes.clause {ts : List Lexeme} {r : Body × List Lexeme} {t : Lexeme} {names : List Lexeme}
    (h : Takes globals b₀ (clauses ++ [⟨t.loc, names.filterMap identName?⟩]) ts r)
    (hlet : t.token = .kwLet) (hnames : ∀ t ∈ names, (identName? t).isSome = true) (l : Location) :
    Takes globals b₀ clauses (t :: (names ++ ⟨l, .kwIn⟩ :: ts)) r := by
  obtain ⟨taken, b, loc, rfl, hplain, hgrows, hfinish⟩ := h
  refine ⟨t :: (names ++ ⟨l, .kwIn⟩ :: taken), b, loc, by simp, ?_, ?_, hfinish⟩
  · refine List.forall_mem_cons.mpr ⟨by rw [hlet]; rfl, ?_⟩
    refine List.forall_mem_append.mpr ⟨?_, List.forall_mem_cons.mpr ⟨rfl, hplain⟩⟩
    intro t ht
    exact Declaration.isDeclarator_of_identName? (hnames t ht)
  · rw [letClauses_let hlet hnames]
    simpa using hgrows

/-- What is read without a fault fills the slots of the clauses that it takes. -/
theorem Grows.takes {ctx : Enclosing} {ts : List Lexeme} (h : Grows ctx.globals b₀ clauses b)
    (hf : (Body.read ctx b ts).1.faults = []) :
    Takes ctx.globals b₀ clauses ts (Body.read ctx b ts) := by
  fun_induction Body.read ctx b ts generalizing clauses with
  | case1 b => exact absurd hf (faults_fault_ne_nil _ _ _)
  | case2 b => exact absurd hf (faults_fault_ne_nil _ _ _)
  | case3 b t ts hrparen s outer hblocks ih =>
    exact (ih (h.close t.loc s outer) hf).cons (by simp [hrparen]) (by rw [hrparen]; rfl)
  | case4 b t ts hrparen hblocks =>
    have hnone : Takes ctx.globals b₀ clauses ts (b.finish t.loc, ts) :=
      ⟨[], b, t.loc, rfl, by simp [Plain], by simpa [letClauses] using h, rfl⟩
    exact hnone.cons (by simp [hrparen]) (by rw [hrparen]; rfl)
  | case5 b t ts hlparen ih =>
    exact (ih (h.test t.loc) hf).cons (by simp [hlparen]) (by rw [hlparen]; rfl)
  | case6 b t ts hif ih =>
    exact (ih (h.enter t.loc .cond) hf).cons (by simp [hif]) (by rw [hif]; rfl)
  | case7 b t ts hloop ih =>
    exact (ih (h.enter t.loc .loop) hf).cons (by simp [hloop]) (by rw [hloop]; rfl)
  | case8 b t ts helse ih =>
    exact (ih (h.orElse t.loc) hf).cons (by simp [helse]) (by rw [helse]; rfl)
  | case10 b t ts hlet hle names l rest hrest hlt =>
    rename_i ih
    have hts := List.takeWhile_append_dropWhile (p := fun t => (identName? t).isSome) (l := ts)
    rw [hrest] at hts
    rw [← hts]
    refine (ih (h.bind t.loc (ne_nil_of_bind (faults_of_read hf))) hf).clause hlet ?_ l
    intro t ht
    exact List.mem_takeWhile_imp (p := fun t => (identName? t).isSome) ht
  | case13 b t hcast target rest ty htype ih =>
    refine ((ih (h.emit t.loc _ ⟨ty, rfl⟩) hf).cons ?_ ?_).cons ?_ ?_
    · simp [htype]
    · rw [htype]; rfl
    · simp [hcast]
    · rw [hcast]; rfl
  | case18 b t ts h₁ h₂ h₃ h₄ h₅ h₆ h₇ h₈ h₉ ih =>
    exact (ih (h.simple t) hf).cons h₈ (Declaration.isDeclarator_eq_false h₁)
  -- in all other cases a fault is on record
  | _ => exact absurd (faults_of_read hf) (faults_fault_ne_nil _ _ _)

theorem bound_of_read {ctx : Enclosing} {strings : List String} {ts : List Lexeme}
    (h : (read ctx { strings } ts).1.faults = []) :
    ∃ taken, ts = taken ++ (read ctx { strings } ts).2 ∧ Plain taken ∧
      Bound (read ctx { strings } ts).1.code (read ctx { strings } ts).1.bindings
        (letClauses taken) := by
  obtain ⟨taken, b, loc, htaken, hplain, hgrows, hread⟩ := Grows.refl.takes h
  obtain ⟨ending, hfinish, hending⟩ := b.exists_finish loc
  have hnone : bindSites ending = [] := by
    obtain ⟨rfl, -⟩ | ⟨l, rfl, -⟩ := hending
    · rfl
    · rfl
  refine ⟨taken, htaken, hplain, ?_⟩
  rw [hread, hfinish]
  exact hgrows.bound.append hnone

end Body

namespace Declaration

/--
The function `f` is declared by the tokens `ts`: behind its name stands `text`, up to the next
declaration.
-/
def Declares (ts : List Lexeme) (f : Function) (text : List Lexeme) : Prop :=
  ∃ before loc after,
    ts = before ++ ⟨loc, .decl (if f.overload then .fnOverload else .fn)⟩ ::
      ⟨f.loc, .ident f.name⟩ :: (text ++ after) ∧ Plain text ∧ atEnd after = true

theorem Declares.append {ts text : List Lexeme} {f : Function} (h : Declares ts f text)
    (before : List Lexeme) : Declares (before ++ ts) f text := by
  obtain ⟨first, loc, after, rfl, hplain, hafter⟩ := h
  exact ⟨before ++ first, loc, after, by simp, hplain, hafter⟩

theorem ne_let_of_kindFaults {ts : List Lexeme} (h : kindFaults ts = []) :
    ∀ t ∈ ts, t.token ≠ .kwLet := by
  intro t ht hlet
  have := List.filter_eq_nil_iff.mp (List.map_eq_nil_iff.mp h) t ht
  simp [hlet, Token.kind?] at this

/-- The tokens of a signature without a fault hold no clause, so all clauses stand in the body. -/
theorem bound_withBody {p : Program} {f g : Function} {faults : List SyntaxError} {stop : Location}
    {ts : List Lexeme} (h : Faultless (withBody p f faults stop ts).reports)
    (hg : g ∈ (withBody p f faults stop ts).program.functions) :
    g ∈ p.functions ∨ g.loc = f.loc ∧ g.name = f.name ∧ g.overload = f.overload ∧ faults = [] ∧
      ∃ text, ts = text ++ (withBody p f faults stop ts).rest ∧ Plain text ∧
        Bound g.code g.bindings (letClauses text) := by
  unfold withBody at h hg ⊢
  split at h
  · next l us =>
    simp only [faultless_map_fault, List.append_eq_nil_iff, Body.reportOpen] at h
    simp only [List.mem_append, List.mem_singleton] at hg
    refine hg.imp_right ?_
    rintro rfl
    obtain ⟨taken, htaken, hplain, hbound⟩ := Body.bound_of_read h.2.1
    refine ⟨rfl, rfl, rfl, h.1, ⟨l, .lparen⟩ :: taken, ?_, ?_, ?_⟩
    · rw [List.cons_append, ← htaken]
    · exact List.forall_mem_cons.mpr ⟨rfl, hplain⟩
    · rw [letClauses_cons (by simp)]
      exact hbound
  · rw [faultless_map_fault] at h
    simp at h

theorem exists_signature (p : Program) (internal overload : Bool) (stop loc : Location)
    (name : String) (us : List Lexeme) :
    ∃ f faults signature rest,
      function p internal overload stop (⟨loc, .ident name⟩ :: us) = withBody p f faults stop rest ∧
        f.loc = loc ∧ f.name = name ∧ f.overload = overload ∧ us = signature ++ rest ∧
        Plain signature ∧ (faults = [] → ∀ t ∈ signature, t.token ≠ .kwLet) := by
  have hsplit (ts : List Lexeme) :
      ts = ts.takeWhile (!endsKinds ·) ++ ts.dropWhile (!endsKinds ·) :=
    List.takeWhile_append_dropWhile.symm
  unfold function
  simp only [expectName, Body.current, List.tail_cons]
  generalize hafter : us.dropWhile (!endsKinds ·) = after
  split
  · next l ts =>
    refine ⟨_, _, us.takeWhile (!endsKinds ·) ++ ⟨l, .arrow⟩ :: ts.takeWhile (!endsKinds ·), _, rfl,
      rfl, rfl, rfl, ?_, ?_, ?_⟩
    · rw [List.append_assoc, List.cons_append, ← hsplit ts, ← hafter, ← hsplit us]
    · exact List.forall_mem_append.mpr ⟨plain_kinds us,
        List.forall_mem_cons.mpr ⟨rfl, plain_kinds ts⟩⟩
    · intro hfaults
      simp only [List.append_eq_nil_iff] at hfaults
      refine List.forall_mem_append.mpr ⟨ne_let_of_kindFaults hfaults.1.2, ?_⟩
      exact List.forall_mem_cons.mpr ⟨by simp, ne_let_of_kindFaults hfaults.2⟩
  · refine ⟨_, _, us.takeWhile (!endsKinds ·), _, rfl, rfl, rfl, rfl, ?_, plain_kinds us, ?_⟩
    · rw [← hafter, ← hsplit us]
    · intro hfaults
      simp only [List.append_eq_nil_iff] at hfaults
      exact ne_let_of_kindFaults hfaults.1.2

theorem bound_function {p : Program} {internal overload : Bool} {stop : Location}
    {ts : List Lexeme} (h : Faultless (function p internal overload stop ts).reports) {g : Function}
    (hg : g ∈ (function p internal overload stop ts).program.functions) :
    g ∈ p.functions ∨ g.overload = overload ∧
      ∃ text, ts = ⟨g.loc, .ident g.name⟩ :: (text ++ (function p internal overload stop ts).rest) ∧
        Plain text ∧ Bound g.code g.bindings (letClauses text) := by
  cases hname : expectName (if overload then .fnOverload else .fn) stop ts with
  | error e =>
    unfold function at h
    rw [hname] at h
    exact absurd h (not_faultless_failed _ _ _)
  | ok named =>
    obtain ⟨us, rfl⟩ := exists_of_expectName hname
    obtain ⟨f, faults, signature, rest, heq, hloc, hfname, hoverload, rfl, hplain, hlets⟩ :=
      exists_signature p internal overload stop named.2 named.1 us
    rw [heq] at h hg ⊢
    refine (bound_withBody h hg).imp_right ?_
    rintro ⟨hgloc, hgname, hgoverload, hfaults, text, htext, hbody, hbound⟩
    refine ⟨hgoverload.trans hoverload, signature ++ text, ?_, ?_, ?_⟩
    · rw [hgloc, hgname, hloc, hfname, List.append_assoc, ← htext]
    · exact List.forall_mem_append.mpr ⟨hplain, hbody⟩
    · rw [letClauses_append (hlets hfaults)]
      exact hbound

theorem isDeclarator_of_faultless {p : Program} {internal : Bool} {stop : Location} {t : Lexeme}
    {ts : List Lexeme} (h : Faultless (read p internal stop t ts).reports) :
    t.token.isDeclarator = true := by
  unfold read at h
  split at h
  case h_6 => exact absurd h (not_faultless_failed _ _ _)
  all_goals
    next htoken =>
      rw [htoken]
      rfl

theorem atEnd_of_faultless {p : Program} {internal : Bool} {stop : Location} {ts : List Lexeme}
    (h : Faultless (readAll internal stop p ts).2) : atEnd ts = true := by
  cases ts with
  | nil => rfl
  | cons t ts =>
    rw [readAll, faultless_append] at h
    exact isDeclarator_of_faultless h.1

theorem declares_function {p : Program} {internal : Bool} (overload : Bool) {stop : Location}
    {t : Lexeme} {ts : List Lexeme} (ht : t.token = .decl (if overload then .fnOverload else .fn))
    (h : Faultless (function p internal overload stop ts).reports)
    (hrest : atEnd (function p internal overload stop ts).rest = true) {f : Function}
    (hf : f ∈ (function p internal overload stop ts).program.functions) :
    f ∈ p.functions ∨ ∃ text, Declares (t :: ts) f text ∧
      Bound f.code f.bindings (letClauses text) := by
  refine (bound_function h hf).imp_right ?_
  rintro ⟨hoverload, text, hts, hplain, hbound⟩
  refine ⟨text, ⟨[], t.loc, _, ?_, hplain, hrest⟩, hbound⟩
  rw [hoverload, ← ht, List.nil_append, ← hts]

theorem declares_read {p : Program} {internal : Bool} {stop : Location} {t : Lexeme}
    {ts : List Lexeme} (h : Faultless (read p internal stop t ts).reports)
    (hrest : atEnd (read p internal stop t ts).rest = true) {f : Function}
    (hf : f ∈ (read p internal stop t ts).program.functions) :
    f ∈ p.functions ∨ ∃ text, Declares (t :: ts) f text ∧
      Bound f.code f.bindings (letClauses text) := by
  unfold read at h hf hrest
  split at h
  · next ht =>
    simp only [ht] at hf hrest
    exact declares_function false ht h hrest hf
  · next ht =>
    simp only [ht] at hf hrest
    exact declares_function true ht h hrest hf
  · next ht =>
    simp only [ht, functions_const] at hf
    exact .inl hf
  · next ht =>
    simp only [ht, functions_var] at hf
    exact .inl hf
  · next ht =>
    simp only [ht, functions_usingFile] at hf
    exact .inl hf
  · exact absurd h (not_faultless_failed _ _ _)

theorem declares_readAll {internal : Bool} {stop : Location} {p : Program} {ts : List Lexeme}
    (h : Faultless (readAll internal stop p ts).2) {f : Function}
    (hf : f ∈ (readAll internal stop p ts).1.functions) :
    f ∈ p.functions ∨ ∃ text, Declares ts f text ∧ Bound f.code f.bindings (letClauses text) := by
  fun_induction readAll internal stop p ts with
  | case1 p => exact .inl hf
  | case2 p t ts one q reports hrest ih =>
    rw [faultless_append] at h
    simp only [hrest] at ih
    have hlater : Faultless (readAll internal stop one.program one.rest).2 := by
      rw [hrest]
      exact h.2
    rcases ih h.2 hf with hf | ⟨text, hdeclares, hbound⟩
    · exact declares_read h.1 (atEnd_of_faultless hlater) hf
    · obtain ⟨taken, hts, -⟩ := (announced_read h.1).leaves
      have hall := hdeclares.append (t :: taken)
      rw [List.cons_append, ← hts] at hall
      exact .inr ⟨text, hall, hbound⟩

end Declaration

open Declaration (Faultless Declares)

theorem SourceUnit.declares_read {u : SourceUnit} {p : Program} (h : Faultless (u.read p).2)
    {f : Function} (hf : f ∈ (u.read p).1.functions) :
    f ∈ p.functions ∨ ∃ text, Declares u.tokens f text ∧
      Bound f.code f.bindings (letClauses text) := by
  unfold SourceUnit.read at h hf
  unfold SourceUnit.tokens
  cases hstream : TokenStream.ofText u.id u.text with
  | error errors =>
    rw [hstream] at hf
    exact .inl hf
  | ok stream =>
    simp only [hstream] at h hf ⊢
    exact Declaration.declares_readAll h hf

/-- The sources of a program: those that can be loaded, and the library if it is wanted. -/
def Loader.Offers (loader : Loader) (library : Bool) (u : SourceUnit) : Prop :=
  loader.load u.id = .ok u.text ∨ library = true ∧ u = Source.library

theorem Loader.load_of_fetch {loader : Loader} {name : String} {from? : Option String}
    {u : SourceUnit} (h : loader.fetch name from? = .ok u) : loader.load u.id = .ok u.text := by
  unfold fetch at h
  split at h
  · simp at h
  · split at h
    · simp at h
    · next htext =>
      rw [← Except.ok.inj h]
      exact htext

namespace Front

theorem mem_queue_of_settle {fetch : String → Except SourceError SourceUnit} {f : Front}
    {r : Report} {u : SourceUnit} (h : u ∈ (settle fetch f r).queue) :
    u ∈ f.queue ∨ ∃ name, fetch name = .ok u := by
  cases r with
  | fault e => exact .inl h
  | use loc name =>
    simp only [settle] at h
    cases hfetch : fetch name with
    | error e =>
      rw [hfetch] at h
      exact .inl h
    | ok v =>
      simp only [hfetch, accept, enqueue] at h
      split at h
      · exact .inl h
      · rcases List.mem_append.mp h with h | h
        · exact .inl h
        · rw [List.mem_singleton.mp h]
          exact .inr ⟨name, hfetch⟩

theorem mem_queue_of_foldl_settle {fetch : String → Except SourceError SourceUnit} {f : Front}
    {reports : List Report} {u : SourceUnit} (h : u ∈ (reports.foldl (settle fetch) f).queue) :
    u ∈ f.queue ∨ ∃ name, fetch name = .ok u := by
  induction reports generalizing f with
  | nil => exact .inl h
  | cons r rs ih =>
    rcases ih h with h | h
    · exact mem_queue_of_settle h
    · exact .inr h

theorem Reads.offered {loader : Loader} {library : Bool} {f g : Front} {units : List SourceUnit}
    (h : Reads loader f units g) (hf : ∀ u ∈ f.queue, loader.Offers library u) :
    ∀ u ∈ units, loader.Offers library u := by
  induction h with
  | done hqueue => simp
  | @read f g u us units hqueue hrest ih =>
    rw [hqueue] at hf
    obtain ⟨hu, hus⟩ := List.forall_mem_cons.mp hf
    refine List.forall_mem_cons.mpr ⟨hu, ih ?_⟩
    intro v hv
    rcases mem_queue_of_foldl_settle hv with hv | ⟨name, hname⟩
    · exact hus v hv
    · exact .inl (Loader.load_of_fetch hname)

theorem Reads.declares {loader : Loader} {f g : Front} {units : List SourceUnit}
    (h : Reads loader f units g) (herrors : g.errors = []) {fn : Function}
    (hfn : fn ∈ g.program.functions) :
    fn ∈ f.program.functions ∨ ∃ u ∈ units, ∃ text, Declares u.tokens fn text ∧
      Bound fn.code fn.bindings (letClauses text) := by
  induction h with
  | done hqueue => exact .inl hfn
  | @read f g u us units hqueue hrest ih =>
    rcases ih herrors hfn with hfn | ⟨v, hv, hdeclares⟩
    · simp only [step, program_foldl_settle] at hfn
      refine (SourceUnit.declares_read (errors_of_step (hrest.errors herrors)).2 hfn).imp_right ?_
      intro hdeclares
      exact ⟨u, List.mem_cons_self, hdeclares⟩
    · exact .inr ⟨v, List.mem_cons_of_mem u hv, hdeclares⟩

end Front

theorem declares_of_parse {loader : Loader} {entry : String} {options : Options} {p : Program}
    (h : parse loader entry options = .ok p) {f : Function} (hf : f ∈ p.functions) :
    ∃ u text, loader.Offers options.library u ∧ Declares u.tokens f text ∧
      Bound f.code f.bindings (letClauses text) := by
  obtain ⟨start, units, g, hstart, hunits, herrors, rfl⟩ := Front.exists_reads_of_parse h
  have hoffered : ∀ u ∈ units, loader.Offers options.library u := by
    apply hunits.offered
    rw [Front.queue_initial]
    refine List.forall_mem_append.mpr ⟨?_, ?_⟩
    · intro u hu
      split at hu
      · next hlibrary => exact .inr ⟨hlibrary, List.mem_singleton.mp hu⟩
      · simp at hu
    · intro u hu
      rw [List.mem_singleton.mp hu]
      exact .inl (Loader.load_of_fetch hstart)
  rcases hunits.declares herrors hf with hf | ⟨u, hu, text, hdeclares, hbound⟩
  · rw [Front.program_initial] at hf
    simp at hf
  · exact ⟨u, text, hoffered u hu, hdeclares, hbound⟩

/--
The slots of a function are the names of the `let` clauses in its text, in order. Its code fills
them clause by clause, reads none too early, and gives all of them up at its end.
-/
theorem slots_follow_let_clauses {loader : Loader} {entry : String} {options : Options}
    {p : Program} (hparse : parse loader entry options = .ok p) {f : Function}
    (hf : f ∈ p.functions) :
    ∃ u text, loader.Offers options.library u ∧ Declares u.tokens f text ∧
      f.BindingTable (letClauses text) := by
  obtain ⟨u, text, hoffers, hdeclares, hbound⟩ := declares_of_parse hparse hf
  obtain ⟨n, hn⟩ := List.getElem?_of_mem hf
  have hcode := ((wellRead_of_parse hparse).1 n f hn).code
  exact ⟨u, text, hoffers, hdeclares, Function.bindingTable hcode hbound⟩

def shadow : SourceTable :=
  SourceTable.ofList
    [("main", "fn main ( 1 2 let a b in true if ( 3 let a in a drop ) a b drop drop )")]

theorem slots_follow_let_clauses_shadow : ∃ p,
    parse shadow.loader "main" { library := false } = .ok p ∧
      p.functions.map (fun f => f.bindings.map (·.name)) = [["a", "b", "a"]] ∧
      ∀ f ∈ p.functions, ∃ u text, shadow.loader.Offers false u ∧ Declares u.tokens f text ∧
        f.BindingTable (letClauses text) := by
  have hnames : (parse shadow.loader "main" { library := false }).toOption.map (fun p =>
      p.functions.map fun f => f.bindings.map (·.name)) = some [["a", "b", "a"]] := by
    decide +kernel
  cases hparse : parse shadow.loader "main" { library := false } with
  | error e => simp [hparse, Except.toOption] at hnames
  | ok p =>
    simp only [hparse, Except.toOption, Option.map_some, Option.some.injEq] at hnames
    refine ⟨p, rfl, hnames, ?_⟩
    intro f hf
    exact slots_follow_let_clauses hparse hf

end StackLang
